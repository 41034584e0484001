import StackMachine.Display
import StackMachine.Execution

/-!
# Traced execution

A traced run does what a run does and writes a log (specification, §4.3): the state at first, then
for every step whose word is an instruction the instruction with its address and, unless it faults,
the state after it. The log is apart from the session, so tracing cannot change what a program does.
-/

namespace StackMachine

/-- A session and the log of what it did. -/
structure Traced where
  session : Session
  log : String
  deriving DecidableEq, Repr

namespace Traced

/-- The entry for a state, which ends in an empty line. -/
def stateEntry (m : Machine) : String := m.display ++ "\n"

/-- The entry for an instruction that a machine is about to execute. -/
def instructionEntry (m : Machine) (i : Instruction) : String :=
  m.site.text ++ ": " ++ i.text ++ "\n"

/-- The beginning of a traced run. -/
def start (s : Session) : Traced := ⟨s, stateEntry s.machine⟩

/-- Executes the next instruction and logs it. -/
def step : EStateM Fault Traced Unit := fun ⟨s, log⟩ =>
  match Session.fetch s with
  | .error f s => .error f ⟨s, log⟩
  | .ok i s =>
    let log := log ++ instructionEntry s.machine i
    match Session.execute i s with
    | .error f s => .error f ⟨s, log⟩
    | .ok _ s =>
      let entry := stateEntry s.machine
      .ok () ⟨s, log ++ entry⟩

/-- Runs until the run flag is clear or a step faults, which clears it. There is no result if that
takes more than `fuel` steps. -/
def run? (fuel : Nat) (t : Traced) : Option (EStateM.Result Fault Traced Unit) :=
  if t.session.running then
    match fuel with
    | 0 => none
    | fuel + 1 =>
      match step t with
      | .ok _ t => run? fuel t
      | .error f t => some (.error f { t with session := t.session.stop })
  else some (.ok () t)

end Traced

end StackMachine
