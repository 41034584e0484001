import StackMachine.Fault

/-!
# Code memory

Code memory (specification, §3) is as large as its capacity whatever the program: words past the
capacity are dropped, and the rest of the memory is zero. Nothing writes to it.
-/

namespace StackMachine

/-- The words that a machine can fetch. -/
structure CodeMemory where
  words : Array Word
  deriving DecidableEq, Repr

namespace CodeMemory

/-- The memory of a given capacity that starts with a program. -/
def ofProgram (program : List Word) (capacity : Nat) : CodeMemory :=
  ⟨(program.take capacity).toArray ++ Array.replicate (capacity - program.length) 0⟩

/-- The number of words. -/
def capacity (code : CodeMemory) : Nat := code.words.size

/-- The word at `pc`. -/
def fetch (code : CodeMemory) (pc : Nat) : Except Fault Word :=
  match code.words[pc]? with
  | some w => .ok w
  | none => .error (.programCounterOutOfRange (.code pc))

@[simp] theorem capacity_ofProgram (program : List Word) (capacity : Nat) :
    (ofProgram program capacity).capacity = capacity := by
  simp [ofProgram, CodeMemory.capacity]; omega

end CodeMemory

end StackMachine
