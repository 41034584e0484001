import StackMachine.Memory.Code

/-!
# Laws of code memory

* `fetch_eq_ok_iff`, `fetch_eq_error_iff`: what a fetch yields, inside the memory and outside;
* `getElem?_ofProgram`: the words of a memory that starts with a program.
-/
namespace StackMachine.CodeMemory

variable {code : CodeMemory} {pc : Nat}

theorem fetch_eq_ok_iff {w : Word} : code.fetch pc = .ok w ↔ code.words[pc]? = some w := by
  unfold fetch
  cases code.words[pc]? <;> simp

/-- A fetch fails exactly outside the memory, and its fault names the place. -/
theorem fetch_eq_error_iff {f : Fault} :
    code.fetch pc = .error f ↔
      code.capacity ≤ pc ∧ f = .programCounterOutOfRange (.code pc) := by
  unfold fetch capacity
  rw [← Array.getElem?_eq_none_iff]
  cases code.words[pc]? <;> simp [eq_comm]

theorem lt_capacity_of_fetch {w : Word} (h : code.fetch pc = .ok w) : pc < code.capacity :=
  (Array.getElem?_eq_some_iff.mp (fetch_eq_ok_iff.mp h)).1

/-- A program that fits is followed by zeros, up to the capacity. -/
theorem getElem?_ofProgram {program : List Word} {capacity : Nat}
    (h : program.length ≤ capacity) (pc : Nat) :
    (ofProgram program capacity).words[pc]? =
      if pc < capacity then some (program.getD pc 0) else none := by
  unfold ofProgram
  rw [List.take_of_length_le h, Array.getElem?_append, List.size_toArray, List.getElem?_toArray,
    Array.getElem?_replicate, List.getD_eq_getElem?_getD]
  by_cases hlt : pc < program.length
  · rw [if_pos hlt, if_pos (by omega), List.getElem?_eq_getElem hlt, Option.getD_some]
  · rw [if_neg hlt, List.getElem?_eq_none (by omega), Option.getD_none]
    by_cases hpc : pc < capacity
    · rw [if_pos hpc, if_pos (by omega)]
    · rw [if_neg hpc, if_neg (by omega)]

theorem fetch_ofProgram {program : List Word} {capacity : Nat} (h : program.length ≤ capacity)
    {w : Word} :
    (ofProgram program capacity).fetch pc = .ok w ↔ pc < capacity ∧ program.getD pc 0 = w := by
  rw [fetch_eq_ok_iff, getElem?_ofProgram h]
  by_cases hpc : pc < capacity <;> simp [hpc]

end StackMachine.CodeMemory
