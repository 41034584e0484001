import Mathlib.Algebra.Group.Nat.Defs
import StackMachine.Memory.Data

/-!
# Laws of data memory

What each operation does to the operand stack as a list (`stack`) and to the cells.

* `push_eq`: in a sound memory a push succeeds exactly if its place lies above the mark, and
  otherwise is a collision;
* `stack_pushed`, `stack_pop`, `stack_stored`: the stack after a push, a pop and a store;
* `load_eq_ok_iff`, `store_eq`: loads and stores by address;
* `Sound`: what every operation keeps.
-/
namespace StackMachine.DataMemory

variable {d : DataMemory}

/-! ## Sound memories -/

/-- The stack and the mark lie in the memory, the first address is never the stack's, and every
address is a signed 64-bit number. -/
structure Sound (d : DataMemory) : Prop where
  sp_le : d.sp ≤ d.capacity
  sp_pos : 0 < d.capacity → 0 < d.sp
  limit_le : d.limit ≤ d.capacity - 1
  capacity_lt : d.capacity < 2 ^ 63

@[simp] theorem capacity_empty (n : Nat) : (empty n).capacity = n := by
  simp only [empty, capacity, Array.size_replicate]

theorem sound_empty {capacity : Nat} (h : capacity < 2 ^ 63) : (empty capacity).Sound := by
  refine ⟨?_, ?_, Nat.zero_le _, ?_⟩ <;> rw [capacity_empty]
  · exact Nat.le_refl _
  · exact id
  · exact h

theorem Sound.signed64_limit (h : d.Sound) : signed64 d.limit = d.limit := by
  have h1 := h.limit_le
  have h2 := h.capacity_lt
  unfold signed64
  rw [if_pos (by omega)]

/-! ## The stack as a list -/

theorem getElem?_stack (d : DataMemory) (i : Nat) : d.stack[i]? = d.cells[d.sp + i]? := by
  simp only [stack, Array.getElem?_toList, Array.getElem?_extract, Nat.min_self]
  split
  · rfl
  · rw [Array.getElem?_eq_none (by omega)]

@[simp] theorem length_stack (d : DataMemory) : d.stack.length = d.depth := by
  simp [stack, depth, capacity]

theorem peek?_eq_head? (d : DataMemory) : d.peek? = d.stack.head? := by
  rw [List.head?_eq_getElem?, getElem?_stack]; rfl

theorem top_eq_take (d : DataMemory) (n : Nat) : d.top n = d.stack.take n := by
  refine List.ext_getElem? fun i => ?_
  rw [List.getElem?_take, getElem?_stack, top, Array.getElem?_toList, Array.getElem?_extract]
  by_cases hi : i < n
  · by_cases hlt : d.sp + i < d.cells.size
    · rw [if_pos hi, if_pos (by omega)]
    · rw [if_pos hi, if_neg (by omega), Array.getElem?_eq_none (by omega)]
  · rw [if_neg hi, if_neg (by omega)]

theorem length_top (d : DataMemory) (n : Nat) : (d.top n).length = min n d.depth := by
  rw [top_eq_take, List.length_take, length_stack]

/-! ## Push -/

/-- The memory after a push that succeeds. -/
def pushed (d : DataMemory) (w : Word) : DataMemory :=
  { d with cells := d.cells.setIfInBounds (d.sp - 1) w, sp := d.sp - 1 }

/-- A push succeeds exactly if its place lies above the mark. It never finds the memory exhausted:
the mark is an address, so it is not negative as a signed number. -/
theorem push_eq (h : d.Sound) (w : Word) :
    d.push w = if d.limit + 1 < d.sp then .ok (d.pushed w)
      else .error (.stackCollision ((d.sp : Int) - 1) d.limit) := by
  have hle : d.sp ≤ d.cells.size := h.sp_le
  unfold push
  rw [h.signed64_limit]
  by_cases hlt : d.limit + 1 < d.sp
  · rw [if_neg (by omega), if_neg (by omega), if_pos hlt]; rfl
  · rw [if_pos (by omega), if_neg hlt]

theorem push_ok (h : d.Sound) {w : Word} {e : DataMemory} (he : d.push w = .ok e) :
    d.limit + 1 < d.sp ∧ e = d.pushed w := by
  rw [push_eq h] at he
  split at he
  · cases he; exact ⟨‹_›, rfl⟩
  · cases he

theorem push_error (h : d.Sound) {w : Word} {f : Fault} (hf : d.push w = .error f) :
    d.sp ≤ d.limit + 1 ∧ f = .stackCollision ((d.sp : Int) - 1) d.limit := by
  rw [push_eq h] at hf
  split at hf
  · cases hf
  · cases hf; exact ⟨by omega, rfl⟩

@[simp] theorem capacity_pushed (d : DataMemory) (w : Word) :
    (d.pushed w).capacity = d.capacity := by
  simp [pushed, capacity]

theorem getElem?_pushed_of_lt (d : DataMemory) (w : Word) {i : Nat} (hi : i < d.sp - 1) :
    (d.pushed w).cells[i]? = d.cells[i]? :=
  Array.getElem?_setIfInBounds_ne (by omega)

theorem stack_pushed (d : DataMemory) (w : Word) (hpos : 0 < d.sp) (hle : d.sp ≤ d.capacity) :
    (d.pushed w).stack = w :: d.stack := by
  unfold capacity at hle
  apply List.ext_getElem?
  intro i
  rw [getElem?_stack]
  cases i with
  | zero => simp only [pushed, Nat.add_zero, List.getElem?_cons_zero]
            rw [Array.getElem?_setIfInBounds_self_of_lt (by omega)]
  | succ i =>
    rw [List.getElem?_cons_succ, getElem?_stack]
    simp only [pushed]
    rw [Array.getElem?_setIfInBounds_ne (by omega), show d.sp - 1 + (i + 1) = d.sp + i by omega]

theorem Sound.pushed (h : d.Sound) {w : Word} (hlt : d.limit + 1 < d.sp) : (d.pushed w).Sound := by
  have hle := h.sp_le
  refine ⟨?_, fun _ => ?_, ?_, ?_⟩
  · rw [capacity_pushed]; simp only [DataMemory.pushed]; omega
  · simp only [DataMemory.pushed]; omega
  · rw [capacity_pushed]; exact h.limit_le
  · rw [capacity_pushed]; exact h.capacity_lt

/-! ## Pop -/

theorem pop_of_lt (h : d.sp < d.capacity) : d.pop = (d.cells[d.sp], { d with sp := d.sp + 1 }) := by
  unfold pop
  rw [Array.getElem?_eq_getElem h]

theorem pop_of_le (h : d.capacity ≤ d.sp) :
    d.pop = (0, { d with underflows := d.underflows + 1 }) := by
  unfold pop
  rw [Array.getElem?_eq_none h]

@[simp] theorem cells_pop (d : DataMemory) : d.pop.2.cells = d.cells := by
  unfold pop; split <;> rfl

@[simp] theorem limit_pop (d : DataMemory) : d.pop.2.limit = d.limit := by
  unfold pop; split <;> rfl

@[simp] theorem capacity_pop (d : DataMemory) : d.pop.2.capacity = d.capacity := by
  simp [capacity]

theorem sp_pop (d : DataMemory) :
    d.pop.2.sp = if d.sp < d.capacity then d.sp + 1 else d.sp := by
  by_cases h : d.sp < d.capacity
  · rw [pop_of_lt h, if_pos h]
  · rw [pop_of_le (by omega), if_neg h]

theorem underflows_pop (d : DataMemory) :
    d.pop.2.underflows = if d.sp < d.capacity then d.underflows else d.underflows + 1 := by
  by_cases h : d.sp < d.capacity
  · rw [pop_of_lt h, if_pos h]
  · rw [pop_of_le (by omega), if_neg h]

theorem pop_word (d : DataMemory) : d.pop.1 = d.stack.headD 0 := by
  rw [List.headD_eq_head?_getD, List.head?_eq_getElem?, getElem?_stack, Nat.add_zero]
  unfold pop
  cases d.cells[d.sp]? <;> rfl

theorem stack_pop (d : DataMemory) : d.pop.2.stack = d.stack.tail := by
  apply List.ext_getElem?
  intro i
  rw [List.getElem?_tail, getElem?_stack, getElem?_stack, cells_pop, sp_pop]
  unfold capacity
  split
  · rw [show d.sp + 1 + i = d.sp + (i + 1) by omega]
  · rw [Array.getElem?_eq_none (by omega), Array.getElem?_eq_none (by omega)]

theorem Sound.pop (h : d.Sound) : d.pop.2.Sound := by
  have hle := h.sp_le
  refine ⟨?_, ?_, ?_, ?_⟩
  · rw [sp_pop, capacity_pop]; split <;> omega
  · have hpos := h.sp_pos
    rw [sp_pop, capacity_pop]; split <;> omega
  · rw [limit_pop, capacity_pop]; exact h.limit_le
  · rw [capacity_pop]; exact h.capacity_lt

/-- The word at a depth of the stack, zero where the stack has none. -/
def operand (d : DataMemory) (i : Nat) : Word := d.stack.getD i 0

theorem pop_eq_operand (d : DataMemory) : d.pop.1 = d.operand 0 := by
  rw [pop_word, operand, List.headD_eq_head?_getD, List.getD_eq_getElem?_getD,
    List.head?_eq_getElem?]

theorem operand_pop (d : DataMemory) (i : Nat) : d.pop.2.operand i = d.operand (i + 1) := by
  unfold operand
  rw [stack_pop, List.getD_eq_getElem?_getD, List.getElem?_tail, List.getD_eq_getElem?_getD]

/-- The memory without the `n` words on top of the stack. -/
def dropped : Nat → DataMemory → DataMemory
  | 0, d => d
  | n + 1, d => dropped n d.pop.2

theorem Sound.dropped (h : d.Sound) (n : Nat) : (dropped n d).Sound := by
  induction n generalizing d with
  | zero => exact h
  | succ n ih => exact ih h.pop

@[simp] theorem cells_dropped (n : Nat) (d : DataMemory) : (dropped n d).cells = d.cells := by
  induction n generalizing d with
  | zero => rfl
  | succ n ih => rw [dropped, ih, cells_pop]

@[simp] theorem limit_dropped (n : Nat) (d : DataMemory) : (dropped n d).limit = d.limit := by
  induction n generalizing d with
  | zero => rfl
  | succ n ih => rw [dropped, ih, limit_pop]

theorem stack_dropped (n : Nat) (d : DataMemory) : (dropped n d).stack = d.stack.drop n := by
  induction n generalizing d with
  | zero => rfl
  | succ n ih => rw [dropped, ih, stack_pop, List.drop_tail]

/-- Pushing the word that was popped restores the memory. -/
theorem pushed_pop (h : d.sp < d.capacity) : d.pop.2.pushed d.pop.1 = d := by
  have hlt : d.sp < d.cells.size := h
  unfold pop
  rw [Array.getElem?_eq_getElem hlt]
  simp only [pushed, Nat.add_sub_cancel]
  rw [Array.setIfInBounds, dif_pos hlt, Array.set_getElem_self]

theorem stack_eq_nil_iff : d.stack = [] ↔ d.capacity ≤ d.sp := by
  rw [← List.length_eq_zero_iff, length_stack, depth]
  omega

/-- The memory without the two words on top of the stack. -/
def dropTwo (d : DataMemory) : DataMemory := d.pop.2.pop.2

theorem stack_dropTwo (d : DataMemory) : d.dropTwo.stack = d.stack.drop 2 := stack_dropped 2 d

/-! ## Relations that the stack cannot break -/

/-- A relation between memories that neither a pop nor a push breaks. -/
structure Frame (D : DataMemory → DataMemory → Prop) : Prop where
  refl : ∀ d, D d d
  trans : ∀ {d e f}, D d e → D e f → D d f
  pop : ∀ d, D d d.pop.2
  push : ∀ {d w e}, d.push w = .ok e → D d e

theorem Frame.dropTwo {D : DataMemory → DataMemory → Prop} (h : Frame D) (d : DataMemory) :
    D d d.dropTwo :=
  h.trans (h.pop d) (h.pop d.pop.2)

/-! ## Loads and stores -/

theorem index?_eq_some_iff {address : Int} {i : Nat} :
    d.index? address = some i ↔ address = i ∧ i < d.capacity := by
  unfold index?
  split
  · rw [Option.some.injEq]; omega
  · simp only [reduceCtorEq, false_iff]; omega

theorem index?_eq_none_iff {address : Int} :
    d.index? address = none ↔ ¬ (0 ≤ address ∧ address < d.capacity) := by
  unfold index?
  split <;> simp_all

/-- A load succeeds exactly for the addresses of the memory. -/
theorem load_eq_ok_iff {address : Int} {w : Word} :
    d.load address = .ok w ↔ ∃ i : Nat, address = i ∧ d.cells[i]? = some w := by
  unfold load
  split
  · rename_i i hi
    obtain ⟨rfl, hlt⟩ := index?_eq_some_iff.mp hi
    unfold capacity at hlt
    rw [Except.ok.injEq, Array.getD_eq_getD_getElem?, Array.getElem?_eq_getElem hlt]
    constructor
    · rintro rfl; exact ⟨i, rfl, Array.getElem?_eq_getElem hlt⟩
    · rintro ⟨j, hj, hw⟩
      obtain rfl : i = j := by omega
      rw [Array.getElem?_eq_getElem hlt] at hw
      exact Option.some.inj hw
  · rename_i hi
    simp only [reduceCtorEq, false_iff, not_exists, not_and]
    rintro i rfl hw
    have hlt := (Array.getElem?_eq_some_iff.mp hw).1
    exact index?_eq_none_iff.mp hi ⟨by omega, by unfold capacity; omega⟩

theorem load_natCast (d : DataMemory) {i : Nat} {w : Word} (h : d.cells[i]? = some w) :
    d.load i = .ok w :=
  load_eq_ok_iff.mpr ⟨i, rfl, h⟩

/-- Memories with the same word in a cell load the same from it. -/
theorem load_eq_of_cell {d e : DataMemory} {i : Nat} (hi : i < d.capacity)
    (h : e.cells[i]? = d.cells[i]?) : e.load i = d.load i := by
  have hw : d.cells[i]? = some d.cells[i] := Array.getElem?_eq_getElem hi
  rw [load_natCast d hw, load_natCast e (h.trans hw)]

theorem load_error {address : Int} {f : Fault} (h : d.load address = .error f) :
    ¬ (0 ≤ address ∧ address < d.capacity) ∧ f = .addressOutOfRange address := by
  unfold load at h
  split at h
  · cases h
  · cases h; exact ⟨index?_eq_none_iff.mp ‹_›, rfl⟩

/-- The memory after a store that succeeds. -/
def stored (d : DataMemory) (i : Nat) (w : Word) : DataMemory :=
  { d with cells := d.cells.setIfInBounds i w, limit := max d.limit i }

theorem store_eq (d : DataMemory) (address : Int) (w : Word) :
    d.store address w = match d.index? address with
      | some i => .ok (d.stored i w)
      | none => .error (.addressOutOfRange address) := rfl

@[simp] theorem capacity_stored (d : DataMemory) (i : Nat) (w : Word) :
    (d.stored i w).capacity = d.capacity := by
  simp [stored, capacity]

theorem getElem?_stored_self (d : DataMemory) {i : Nat} (h : i < d.capacity) (w : Word) :
    (d.stored i w).cells[i]? = some w :=
  Array.getElem?_setIfInBounds_self_of_lt h

theorem getElem?_stored_ne (d : DataMemory) {i j : Nat} (h : i ≠ j) (w : Word) :
    (d.stored i w).cells[j]? = d.cells[j]? :=
  Array.getElem?_setIfInBounds_ne h

/-- A store changes the stack exactly if its address is one of the stack's, and then the one word
of the stack that lies there. -/
theorem stack_stored (d : DataMemory) (i : Nat) (w : Word) :
    (d.stored i w).stack = if d.sp ≤ i then d.stack.set (i - d.sp) w else d.stack := by
  apply List.ext_getElem?
  intro j
  rw [getElem?_stack]
  simp only [stored]
  by_cases hle : d.sp ≤ i
  · rw [if_pos hle, List.getElem?_set, Array.getElem?_setIfInBounds, getElem?_stack, length_stack]
    by_cases hj : i = d.sp + j
    · rw [if_pos hj, if_pos (show i - d.sp = j by omega)]
      unfold depth capacity
      by_cases hlt : i < d.cells.size
      · rw [if_pos hlt, if_pos (by omega)]
      · rw [if_neg hlt, if_neg (by omega)]
    · rw [if_neg hj, if_neg (show i - d.sp ≠ j by omega)]
  · rw [if_neg hle, Array.getElem?_setIfInBounds_ne (by omega), getElem?_stack]

theorem Sound.stored (h : d.Sound) {i : Nat} (hi : i < d.capacity) (w : Word) :
    (d.stored i w).Sound := by
  have hle := h.limit_le
  refine ⟨?_, ?_, ?_, ?_⟩ <;> rw [capacity_stored]
  · exact h.sp_le
  · exact h.sp_pos
  · simp only [DataMemory.stored]; omega
  · exact h.capacity_lt

end StackMachine.DataMemory
