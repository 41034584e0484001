import StackMachine.Proofs.Arity
import StackMachine.Proofs.Program
import StackMachine.Proofs.Reading
import StackMachine.Proofs.Resuming

/-!
# Outlines

A program that takes only operands that are there and stores only to its own variables, at the
lowest addresses, sees little of a machine: its stack and its variables as lists, and the console as
the words that are still to be read and those that were printed. What lies between the variables and
the stack it never sees.

* `Outline`: what such a program sees, and what its instructions make of it;
* `Shows`: a memory or a session looks like that; `execute_follows` is one instruction,
  `next_shows` one step;
* `Leads`: a run gets from one outline to another; `leads_of_run?`: so it does if instructions
  compute the one from the other;
* `Leads.runsTo`: at a halt it terminates.
-/
namespace StackMachine

/-! ## Memories -/

/-- The memory has this stack, and these variables at its lowest addresses, below the stack. The
mark is among the variables, and no pop was missed. -/
structure DataMemory.Shows (capacity : Nat) (stack vars : List Word) (mark : Nat)
    (d : DataMemory) : Prop where
  sound : d.Sound
  capacity_eq : d.capacity = capacity
  stack_eq : d.stack = stack
  vars_eq : ∀ (i : Nat) (w : Word), vars[i]? = some w → d.cells[i]? = some w
  fits : vars.length + stack.length ≤ capacity
  limit_eq : d.limit = mark
  mark_lt : mark < vars.length
  underflows_eq : d.underflows = 0

namespace DataMemory.Shows

variable {capacity mark : Nat} {stack vars : List Word} {w : Word} {d : DataMemory}

theorem empty {count : Nat} (hpos : 0 < count) (hle : count ≤ capacity) (hlt : capacity < 2 ^ 63) :
    Shows capacity [] (List.replicate count 0) 0 (.empty capacity) where
  sound := sound_empty hlt
  capacity_eq := capacity_empty capacity
  stack_eq := stack_eq_nil_iff.mpr (Nat.le_of_eq (capacity_empty capacity))
  vars_eq i w hw := by
    obtain ⟨hi, hw⟩ := List.getElem?_eq_some_iff.mp hw
    rw [List.getElem_replicate] at hw
    rw [List.length_replicate] at hi
    simp only [DataMemory.empty, Array.getElem?_replicate, ← hw]
    exact if_pos (by omega)
  fits := by simpa using hle
  limit_eq := rfl
  mark_lt := by simpa using hpos
  underflows_eq := rfl

theorem sp_eq (h : Shows capacity stack vars mark d) : d.sp + stack.length = capacity := by
  have hle := h.sound.sp_le
  have hcapacity := h.capacity_eq
  have hdepth := length_stack d
  rw [h.stack_eq, depth] at hdepth
  omega

/-- There is room for a push between the variables and the stack. -/
theorem push (h : Shows capacity stack vars mark d) (w : Word)
    (hroom : vars.length + stack.length < capacity) :
    d.push w = .ok (d.pushed w) ∧ Shows capacity (w :: stack) vars mark (d.pushed w) := by
  have hsp := h.sp_eq
  have hlimit := h.limit_eq
  have hmark := h.mark_lt
  have hlt : d.limit + 1 < d.sp := by omega
  refine ⟨by rw [push_eq h.sound, if_pos hlt], h.sound.pushed hlt, ?_, ?_, fun i v hv => ?_,
    ?_, hlimit, hmark, h.underflows_eq⟩
  · rw [capacity_pushed, h.capacity_eq]
  · rw [stack_pushed d w (by omega) h.sound.sp_le, h.stack_eq]
  · have hi : i < vars.length := (List.getElem?_eq_some_iff.mp hv).1
    rw [getElem?_pushed_of_lt d w (by omega)]
    exact h.vars_eq i v hv
  · rw [List.length_cons]
    omega

theorem pop (h : Shows capacity (w :: stack) vars mark d) :
    d.pop.1 = w ∧ Shows capacity stack vars mark d.pop.2 := by
  have hsp := h.sp_eq
  have hcapacity := h.capacity_eq
  have hfits := h.fits
  rw [List.length_cons] at hsp hfits
  refine ⟨by rw [pop_word, h.stack_eq]; rfl, h.sound.pop, ?_, ?_, fun i v hv => ?_, by omega, ?_,
    h.mark_lt, ?_⟩
  · rw [capacity_pop, hcapacity]
  · rw [stack_pop, h.stack_eq]
    rfl
  · rw [cells_pop]
    exact h.vars_eq i v hv
  · rw [limit_pop, h.limit_eq]
  · rw [underflows_pop, if_pos (by omega), h.underflows_eq]

theorem load (h : Shows capacity stack vars mark d) {i : Nat} (hw : vars[i]? = some w) :
    d.load i = .ok w :=
  load_natCast d (h.vars_eq i w hw)

/-- A store to a variable leaves the others and the stack alone. -/
theorem store (h : Shows capacity stack vars mark d) {address : Int} (w : Word)
    (hin : 0 ≤ address ∧ address < vars.length) :
    d.store address w = .ok (d.stored address.toNat w) ∧
      Shows capacity stack (vars.set address.toNat w) (max mark address.toNat)
        (d.stored address.toNat w) := by
  have hsp := h.sp_eq
  have hcapacity := h.capacity_eq
  have hfits := h.fits
  have hmark := h.mark_lt
  have hlt : address.toNat < d.capacity := by omega
  have hidx : d.index? address = some address.toNat :=
    index?_eq_some_iff.mpr ⟨by omega, hlt⟩
  refine ⟨by rw [store_eq, hidx], h.sound.stored hlt w, ?_, ?_, fun i v hv => ?_, ?_, ?_, ?_,
    h.underflows_eq⟩
  · rw [capacity_stored, hcapacity]
  · rw [stack_stored, if_neg (by omega), h.stack_eq]
  · by_cases hi : address.toNat = i
    · subst hi
      rw [List.getElem?_set_self (by omega)] at hv
      rw [getElem?_stored_self d hlt, hv]
    · rw [List.getElem?_set_ne hi] at hv
      rw [getElem?_stored_ne d hi]
      exact h.vars_eq i v hv
  · rw [List.length_set]
    exact h.fits
  · simp only [stored, h.limit_eq]
  · rw [List.length_set]
    omega

end DataMemory.Shows

/-! ## Outlines -/

/-- What a program sees of a session: where it goes on, the operand stack, top first, its variables,
the mark, the return addresses, latest first, the results that reads will have, and the words that
were printed. -/
structure Outline where
  pc : Nat
  stack : List Word
  vars : List Word
  mark : Nat
  calls : List Nat
  input : List (Except Fault Word)
  printed : List Word

/-- An action on outlines. There is none if the outline does not tell what it would do. -/
abbrev Outline.Action := StateT Outline Option

namespace Outline

/-- Takes the top word, if there is one. -/
def pop : Action Word := fun o =>
  match o.stack with
  | w :: stack => some (w, { o with stack := stack })
  | [] => none

/-- Puts a word on the stack, if there is room for it above the variables. -/
def push (capacity : Nat) (w : Word) : Action Unit := fun o =>
  if o.vars.length + o.stack.length < capacity then some ((), { o with stack := w :: o.stack })
  else none

/-- Reads a variable. -/
def load (address : Nat) : Action Word := fun o => o.vars[address]?.map fun w => (w, o)

/-- Writes a variable. -/
def store (address : Int) (w : Word) : Action Unit := fun o =>
  if 0 ≤ address ∧ address < o.vars.length then
    some ((), { o with
      vars := o.vars.set address.toNat w
      mark := max o.mark address.toNat })
  else none

/-- Goes on at `pc`. -/
def jump (pc : Nat) : Action Unit := fun o => some ((), { o with pc := pc })

/-- Goes on at `pc`, and remembers where to come back to. -/
def call (pc : Nat) : Action Unit := fun o =>
  some ((), { o with pc := pc, calls := o.pc :: o.calls })

/-- Goes back to where the latest call came from. -/
def ret : Action Unit := fun o =>
  match o.calls with
  | pc :: calls => some ((), { o with pc := pc, calls := calls })
  | [] => none

/-- Reads the next word of the input. -/
def read : Action Word := fun o =>
  match o.input with
  | .ok w :: input => some (w, { o with input := input })
  | _ => none

/-- Prints a word. -/
def print (w : Word) : Action Unit := fun o =>
  some ((), { o with printed := o.printed ++ [w] })

/-- Carries out one instruction that does not halt. -/
def execute (capacity : Nat) (i : Instruction) : Action Unit :=
  match i.opcode with
  | .halt => failure
  | .push | .lvalue => push capacity i.literal
  | .rvalue => do push capacity (← load i.target)
  | .pop => discard pop
  | .sto => do
    let value ← pop
    let address ← pop
    store address.toInt value
  | .copy => do
    let w ← pop
    push capacity w
    push capacity w
  | .unary op => do push capacity (op.eval (← pop))
  | .binary op => do
    let right ← pop
    let left ← pop
    match op.eval? left right with
    | some w => push capacity w
    | none => failure
  | .label => pure ()
  | .goto => jump i.target
  | .gofalse => do if (← pop) = 0 then jump i.target
  | .gotrue => do if (← pop) ≠ 0 then jump i.target
  | .print => do print (← pop)
  | .read => do push capacity (← read)
  | .gosub => call i.target
  | .ret => ret

/-- The outline after a number of instructions, each taken from where the one before it goes on. -/
def run? (instructions : List Instruction) (capacity : Nat) : Nat → Outline → Option Outline
  | 0, o => some o
  | n + 1, o => do
    let i ← instructions[o.pc]?
    let ((), o) ← execute capacity i { o with pc := o.pc + 1 }
    run? instructions capacity n o

end Outline

/-! ## Sessions -/

namespace Session

variable {α β : Type} {code : CodeMemory} {capacity : Nat} {o p : Outline} {s : Session}

/-- The session is running this code, looks like the outline, and has an output without a limit. -/
structure Shows (code : CodeMemory) (capacity : Nat) (o : Outline) (s : Session) : Prop where
  running_eq : s.running = true
  code_eq : s.machine.code = code
  pc_eq : s.machine.pc = o.pc
  calls_eq : s.machine.calls = o.calls
  data : DataMemory.Shows capacity o.stack o.vars o.mark s.machine.data
  input_eq : s.console.input.remaining = o.input
  output_eq : s.console.output = ⟨Output.text o.printed, none⟩

theorem Shows.withData (h : s.Shows code capacity o) {stack vars : List Word} {mark : Nat}
    {d : DataMemory} (hd : DataMemory.Shows capacity stack vars mark d) :
    (s.withData d).Shows code capacity { o with stack := stack, vars := vars, mark := mark } :=
  ⟨h.running_eq, h.code_eq, h.pc_eq, h.calls_eq, hd, h.input_eq, h.output_eq⟩

theorem Shows.fetched (h : s.Shows code capacity o) (w : Word) :
    (s.fetched w).Shows code capacity { o with pc := o.pc + 1 } :=
  ⟨h.running_eq, h.code_eq, congrArg (· + 1) h.pc_eq, h.calls_eq, h.data, h.input_eq, h.output_eq⟩

/-! ## Instructions -/

/-- What the second action does to an outline, the first does to every session that looks like it,
and it succeeds. -/
def Follows (code : CodeMemory) (capacity : Nat) (x : Exec α) (y : Outline.Action α) : Prop :=
  ∀ s o v p, s.Shows code capacity o → y o = some (v, p) →
    ∃ t, x s = .ok v t ∧ t.Shows code capacity p

namespace Follows

theorem bind {x : Exec α} {y : Outline.Action α} {k : α → Exec β} {l : α → Outline.Action β}
    (hx : Follows code capacity x y) (hk : ∀ v, Follows code capacity (k v) (l v)) :
    Follows code capacity (x >>= k) (y >>= l) := by
  intro s o v p h ho
  obtain ⟨⟨u, q⟩, hy, hl⟩ := Option.bind_eq_some_iff.mp ho
  obtain ⟨t, ht, hq⟩ := hx s o u q h hy
  rw [bind_apply, ht]
  exact hk u t q v p hq hl

theorem discard {x : Exec α} {y : Outline.Action α} (hx : Follows code capacity x y) :
    Follows code capacity (discard x) (discard y) := by
  intro s o v p h ho
  obtain ⟨⟨u, q⟩, hy, hl⟩ := Option.bind_eq_some_iff.mp ho
  cases hl
  obtain ⟨t, ht, hp⟩ := hx s o u p h hy
  rw [discard_apply, ht]
  exact ⟨t, rfl, hp⟩

theorem pure (v : α) : Follows code capacity (Pure.pure v) (Pure.pure v) := by
  intro s o u p h ho
  cases ho
  exact ⟨s, rfl, h⟩

theorem ite (c : Prop) [Decidable c] {x x' : Exec α} {y y' : Outline.Action α}
    (hx : Follows code capacity x y) (hx' : Follows code capacity x' y') :
    Follows code capacity (if c then x else x') (if c then y else y') := by
  split
  · exact hx
  · exact hx'

/-- Nothing is asked of an action that the outline does not tell. -/
theorem failure (x : Exec α) : Follows code capacity x failure :=
  fun _ _ _ _ _ ho => nomatch ho

theorem pop : Follows code capacity Session.pop Outline.pop := by
  intro s o v p h ho
  have hdata := h.data
  unfold Outline.pop at ho
  split at ho
  · rename_i w stack hs
    cases ho
    rw [hs] at hdata
    obtain ⟨hw, hd⟩ := hdata.pop
    exact ⟨_, by rw [pop_apply, hw], h.withData hd⟩
  · cases ho

theorem push (w : Word) : Follows code capacity (Session.push w) (Outline.push capacity w) := by
  intro s o v p h ho
  unfold Outline.push at ho
  split at ho
  · rename_i hroom
    cases ho
    obtain ⟨hpush, hd⟩ := h.data.push w hroom
    exact ⟨_, by rw [push_apply, hpush], h.withData hd⟩
  · cases ho

theorem load (address : Nat) :
    Follows code capacity (Session.load address) (Outline.load address) := by
  intro s o v p h ho
  obtain ⟨w, hw, hp⟩ := Option.map_eq_some_iff.mp ho
  cases hp
  exact ⟨s, by rw [load_apply, h.data.load hw], h⟩

theorem store (address : Int) (w : Word) :
    Follows code capacity (Session.store address w) (Outline.store address w) := by
  intro s o v p h ho
  unfold Outline.store at ho
  split at ho
  · rename_i hin
    cases ho
    obtain ⟨hstore, hd⟩ := h.data.store w hin
    exact ⟨_, by rw [store_apply, hstore], h.withData hd⟩
  · cases ho

theorem jump (pc : Nat) : Follows code capacity (Session.jump pc) (Outline.jump pc) := by
  intro s o v p h ho
  cases ho
  exact ⟨_, rfl, h.running_eq, h.code_eq, rfl, h.calls_eq, h.data, h.input_eq, h.output_eq⟩

theorem call (pc : Nat) : Follows code capacity (Session.call pc) (Outline.call pc) := by
  intro s o v p h ho
  cases ho
  refine ⟨_, rfl, h.running_eq, h.code_eq, rfl, ?_, h.data, h.input_eq, h.output_eq⟩
  show s.machine.pc :: s.machine.calls = _
  rw [h.pc_eq, h.calls_eq]

theorem ret : Follows code capacity Session.ret Outline.ret := by
  intro s o v p h ho
  unfold Outline.ret at ho
  split at ho
  · rename_i pc calls hcalls
    cases ho
    have hs : s.machine.calls = pc :: calls := h.calls_eq.trans hcalls
    unfold Session.ret
    simp only [hs]
    exact ⟨_, rfl, h.running_eq, h.code_eq, rfl, rfl, h.data, h.input_eq, h.output_eq⟩
  · cases ho

theorem read : Follows code capacity Session.read Outline.read := by
  intro s o v p h ho
  unfold Outline.read at ho
  split at ho
  · rename_i w input hi
    cases ho
    obtain ⟨rest, hrest, hread⟩ := Input.read_of_remaining_cons (h.input_eq.trans hi)
    have hfirst := hread []
    rw [Input.more_nil, Input.more_nil] at hfirst
    rw [read_apply, hfirst]
    exact ⟨_, rfl, h.running_eq, h.code_eq, h.pc_eq, h.calls_eq, h.data, hrest, h.output_eq⟩
  · cases ho

theorem print (w : Word) : Follows code capacity (Session.print w) (Outline.print w) := by
  intro s o v p h ho
  cases ho
  obtain ⟨m, input, output⟩ := s
  obtain rfl : output = _ := h.output_eq
  refine ⟨_, rfl, h.running_eq, h.code_eq, h.pc_eq, h.calls_eq, h.data, h.input_eq, ?_⟩
  rw [Output.text_append, Output.text_singleton]

end Follows

/-- An instruction does to a session what it does to its outline. -/
theorem execute_follows (i : Instruction) :
    Follows code capacity (execute i) (Outline.execute capacity i) := by
  obtain ⟨op, n⟩ := i
  cases op with
  | halt => exact .failure _
  | push | lvalue => exact .push _
  | rvalue => exact .bind (.load _) .push
  | pop => exact .discard .pop
  | sto => exact .bind .pop fun value => .bind .pop fun address => .store _ _
  | copy => exact .bind .pop fun w => .bind (.push w) fun _ => .push w
  | unary op => exact .bind .pop fun w => .push _
  | binary op =>
    refine .bind .pop fun right => .bind .pop fun left => ?_
    cases op.eval? left right with
    | some w => exact .push w
    | none => exact .failure _
  | label => exact .pure ()
  | goto => exact .jump _
  | gofalse | gotrue => exact .bind .pop fun w => .ite _ (.jump _) (.pure ())
  | print => exact .bind .pop .print
  | read => exact .bind .read .push
  | gosub => exact .call _
  | ret => exact .ret

/-! ## Steps and runs -/

variable {instructions : List Instruction} {config : Config}

/-- The code of a list of instructions, in a machine of some size. -/
abbrev codeOf (config : Config) (instructions : List Instruction) : CodeMemory :=
  .ofProgram (Program.assemble instructions) config.codeCapacity

/-- A fresh machine has all its variables at zero. -/
theorem shows_fresh (config : Config) (instructions : List Instruction) (count : Nat)
    (hpos : 0 < count) (hle : count ≤ config.dataCapacity) (hlt : config.dataCapacity < 2 ^ 63)
    (bytes : List UInt8) :
    Shows (codeOf config instructions) config.dataCapacity
      ⟨0, [], List.replicate count 0, 0, [], (Input.ofBytes bytes).remaining, []⟩
      ⟨.fresh config (Program.assemble instructions), .ofBytes bytes none⟩ :=
  ⟨rfl, rfl, rfl, rfl, .empty hpos hle hlt, rfl, rfl⟩

theorem instruction?_codeOf (hfits : instructions.length ≤ config.codeCapacity)
    (h : s.machine.code = codeOf config instructions) {i : Instruction}
    (hi : instructions[s.machine.pc]? = some i) : s.instruction? = some i := by
  have hpc : s.machine.pc < instructions.length := (List.getElem?_eq_some_iff.mp hi).1
  have hfetch : s.machine.code.fetch s.machine.pc =
      .ok ((Program.assemble instructions).getD s.machine.pc 0) := by
    rw [h]
    exact (CodeMemory.fetch_ofProgram (by rwa [Program.length_assemble])).mpr ⟨by omega, rfl⟩
  refine instruction?_eq_some_iff.mpr ⟨_, hfetch, ?_⟩
  rw [Program.decode_getD_assemble, List.getD_eq_getElem?_getD, hi]
  rfl

theorem next_shows (hfits : instructions.length ≤ config.codeCapacity)
    (h : s.Shows (codeOf config instructions) config.dataCapacity o) {i : Instruction}
    (hi : instructions[o.pc]? = some i)
    (ho : Outline.execute config.dataCapacity i { o with pc := o.pc + 1 } = some ((), p)) :
    s.fault? = none ∧ s.next.Shows (codeOf config instructions) config.dataCapacity p := by
  rw [← h.pc_eq] at hi
  obtain ⟨w, -, hs⟩ := step_of_instruction? (instruction?_codeOf hfits h.code_eq hi)
  obtain ⟨t, ht, hp⟩ := execute_follows i _ _ _ _ (h.fetched w) ho
  unfold fault? next
  rw [hs, ht]
  exact ⟨rfl, hp⟩

/-- Every run that comes by the one outline comes by the other. -/
def Leads (config : Config) (instructions : List Instruction) (o p : Outline) : Prop :=
  ∀ s : Session, s.Shows (codeOf config instructions) config.dataCapacity o →
    ∃ t : Session, t.Shows (codeOf config instructions) config.dataCapacity p ∧
      ∀ r, t.RunsTo r → s.RunsTo r

theorem Leads.trans {q : Outline} (h : Leads config instructions o p)
    (h' : Leads config instructions p q) : Leads config instructions o q := by
  intro s hs
  obtain ⟨t, ht, hruns⟩ := h s hs
  obtain ⟨u, hu, hruns'⟩ := h' t ht
  exact ⟨u, hu, fun r hr => hruns r (hruns' r hr)⟩

theorem leads_of_run? (hfits : instructions.length ≤ config.codeCapacity) (n : Nat) :
    ∀ {o : Outline}, o.run? instructions config.dataCapacity n = some p →
      Leads config instructions o p := by
  induction n with
  | zero =>
    intro o h s hs
    cases h
    exact ⟨s, hs, fun _ => id⟩
  | succ n ih =>
    intro o h s hs
    obtain ⟨i, hi, h⟩ := Option.bind_eq_some_iff.mp h
    obtain ⟨⟨⟨⟩, q⟩, hq, h⟩ := Option.bind_eq_some_iff.mp h
    obtain ⟨hfault, hnext⟩ := next_shows hfits hs hi hq
    obtain ⟨t, ht, hruns⟩ := ih h _ hnext
    exact ⟨t, ht, fun r hr => (runsTo_next hs.running_eq hfault).mp (hruns r hr)⟩

/-- A run that comes by a halt terminates there. -/
theorem Leads.runsTo (hfits : instructions.length ≤ config.codeCapacity)
    (h : Leads config instructions o p) {n : UInt16}
    (hp : instructions[p.pc]? = some ⟨.halt, n⟩)
    (hs : s.Shows (codeOf config instructions) config.dataCapacity o) :
    ∃ t, s.RunsTo (.ok () t) ∧ t.machine.calls = p.calls ∧
      DataMemory.Shows config.dataCapacity p.stack p.vars p.mark t.machine.data ∧
      t.console.output = ⟨Output.text p.printed, none⟩ := by
  obtain ⟨t, ht, hruns⟩ := h s hs
  rw [← ht.pc_eq] at hp
  obtain ⟨w, -, hstep⟩ := step_of_instruction? (instruction?_codeOf hfits ht.code_eq hp)
  have hnext : t.next = { t.fetched w with
    machine := { (t.fetched w).machine with running := false } } := by
    unfold next
    rw [hstep]
    rfl
  have hfault : t.fault? = none := by
    unfold fault?
    rw [hstep]
    rfl
  refine ⟨t.next, hruns _ ((runsTo_next ht.running_eq hfault).mp (runsTo_of_halted ?_)), ?_⟩
  · rw [hnext]
    rfl
  · rw [hnext]
    exact ⟨ht.calls_eq, ht.data, ht.output_eq⟩

end Session

end StackMachine
