import StackMachine.Console
import StackMachine.Machine

/-!
# Execution

A session is a machine at its console. An action on a session, `Exec`, either succeeds or faults;
in both cases the session keeps what the action did so far, so an instruction that faults halfway
has lost the operands it took. The cycle and the instructions are those of the specification, §4.3.

* `fetch` reads the next word and moves the program counter past it;
* `execute` carries out one instruction;
* `step` is the two in turn, and looks at the run flag at no time;
* `steps` and `run?` repeat steps while the run flag is set. A fault ends both; `run?` then clears
  the flag.
-/

namespace StackMachine

/-- A machine at its console. -/
structure Session where
  machine : Machine
  console : Console
  deriving DecidableEq, Repr

/-- An action on a session that may fault. -/
abbrev Exec := EStateM Fault Session

namespace Session

/-! ## Parts of instructions -/

/-- Changes the machine. -/
@[inline] def update (f : Machine → Machine) : Exec Unit := fun ⟨machine, console⟩ =>
  .ok () ⟨f machine, console⟩

/-- Takes the top word off the operand stack. -/
def pop : Exec Word := fun ⟨⟨running, code, data, pc, ir, calls⟩, console⟩ =>
  match data.pop with
  | (w, data) => .ok w ⟨⟨running, code, data, pc, ir, calls⟩, console⟩

/-- Puts a word on the operand stack. -/
def push (w : Word) : Exec Unit := fun ⟨⟨running, code, data, pc, ir, calls⟩, console⟩ =>
  match data.push w with
  | .ok data => .ok () ⟨⟨running, code, data, pc, ir, calls⟩, console⟩
  | .error f => .error f ⟨⟨running, code, data, pc, ir, calls⟩, console⟩

/-- Reads a word of storage. -/
def load (address : Int) : Exec Word := fun s =>
  match s.machine.data.load address with
  | .ok w => .ok w s
  | .error f => .error f s

/-- Writes a word of storage. -/
def store (address : Int) (w : Word) : Exec Unit :=
  fun ⟨⟨running, code, data, pc, ir, calls⟩, console⟩ =>
  match data.store address w with
  | .ok data => .ok () ⟨⟨running, code, data, pc, ir, calls⟩, console⟩
  | .error f => .error f ⟨⟨running, code, data, pc, ir, calls⟩, console⟩

/-- Faults with a fault at the instruction being executed. -/
def faultHere (fault : Address → Fault) : Exec Unit := fun s => .error (fault s.machine.site) s

/-- Goes on at `pc`. -/
def jump (pc : Nat) : Exec Unit := update ({ · with pc := pc })

/-- Goes on at `pc`, and remembers where to come back to. -/
def call (pc : Nat) : Exec Unit := update fun m => { m with calls := m.pc :: m.calls, pc := pc }

/-- Goes back to where the latest call came from. -/
def ret : Exec Unit := fun ⟨m, console⟩ =>
  match m.calls with
  | pc :: calls => .ok () ⟨{ m with pc := pc, calls := calls }, console⟩
  | [] => .error (.returnStackUnderflow m.site) ⟨m, console⟩

/-- Reads the next integer from the console. -/
def read : Exec Word := fun ⟨machine, console⟩ =>
  match console.read with
  | .ok w console => .ok w ⟨machine, console⟩
  | .error f console => .error f ⟨machine, console⟩

/-- Prints a word on the console. -/
def print (w : Word) : Exec Unit := fun ⟨machine, console⟩ =>
  match console.print w with
  | .ok u console => .ok u ⟨machine, console⟩
  | .error f console => .error f ⟨machine, console⟩

/-! ## Instructions -/

/-- Carries out one instruction (§4.3). The right operand of a binary operation is the top of the
stack and the left one the word below it; a store takes its value from the top and its address from
below it. -/
def execute (i : Instruction) : Exec Unit :=
  match i.opcode with
  | .halt => update ({ · with running := false })
  | .push | .lvalue => push i.literal
  | .rvalue => do push (← load i.target)
  | .pop => discard pop
  | .sto => do
    let value ← pop
    let address ← pop
    store address.toInt value
  | .copy => do
    let w ← pop
    push w
    push w
  | .unary op => do push (op.eval (← pop))
  | .binary op => do
    let right ← pop
    let left ← pop
    match op.eval? left right with
    | some w => push w
    | none => faultHere .divisionByZero
  | .label => pure ()
  | .goto => jump i.target
  | .gofalse => do if (← pop) = 0 then jump i.target
  | .gotrue => do if (← pop) ≠ 0 then jump i.target
  | .print => do print (← pop)
  | .read => do push (← read)
  | .gosub => call i.target
  | .ret => ret

/-! ## Steps -/

/-- Reads the next word into the instruction register, moves the program counter past it, and
decodes it. A word outside code memory changes nothing. -/
def fetch : Exec Instruction := fun ⟨⟨running, code, data, pc, ir, calls⟩, console⟩ =>
  match code.fetch pc with
  | .error f => .error f ⟨⟨running, code, data, pc, ir, calls⟩, console⟩
  | .ok word =>
    match Instruction.decode word with
    | .error f => .error f ⟨⟨running, code, data, pc + 1, word, calls⟩, console⟩
    | .ok i => .ok i ⟨⟨running, code, data, pc + 1, word, calls⟩, console⟩

/-- Executes the next instruction, also on a halted machine. A fault leaves the run flag as it is;
only a run clears it. -/
def step : Exec Unit := do execute (← fetch)

/-- Whether the next step reads and what it would read has not arrived. -/
def awaitsInput (s : Session) : Bool :=
  match fetch s with
  | .ok i _ => i.opcode == .read && s.console.input.awaits
  | .error _ _ => false

/-! ## Runs -/

/-- Whether the run flag is set. -/
def running (s : Session) : Bool := s.machine.running

/-- Clears the run flag. -/
def stop (s : Session) : Session := { s with machine := { s.machine with running := false } }

/-- What a bounded number of steps came to: how many were begun, the session after them, and the
fault of the last one, if it had one. -/
structure Progress where
  count : Nat
  session : Session
  fault? : Option Fault
  deriving DecidableEq, Repr

/-- At most `n` more steps after `count` of them. -/
def stepsAfter (count : Nat) : Nat → Session → Progress
  | 0, s => ⟨count, s, none⟩
  | n + 1, s =>
    if s.running then
      match step s with
      | .ok _ s => stepsAfter (count + 1) n s
      | .error f s => ⟨count + 1, s, some f⟩
    else ⟨count, s, none⟩

/-- At most `n` steps, as long as the run flag is set, up to the first fault. -/
def steps (n : Nat) (s : Session) : Progress := stepsAfter 0 n s

/-- Runs until the run flag is clear or a step faults, which clears it (§7). There is no result if
that takes more than `fuel` steps. -/
def run? (fuel : Nat) (s : Session) : Option (EStateM.Result Fault Session Unit) :=
  if s.running then
    match fuel with
    | 0 => none
    | fuel + 1 =>
      match step s with
      | .ok _ s => run? fuel s
      | .error f s => some (.error f s.stop)
  else some (.ok () s)

end Session

end StackMachine
