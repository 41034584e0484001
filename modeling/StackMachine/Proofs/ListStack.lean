import StackMachine.Proofs.Memory

/-!
# Data memory as a list with a mark

`ListStack` is the operand stack without an array: a list of words, top first, the mark, and the
count of pops that found nothing. Of the memory it knows only the capacity.

* `perform_refines`: every operation of data memory is matched by the same operation of the list,
  with the reply that the list asks for;
* `refines_listStack`: so is every sequence of operations that starts from an empty memory.
-/
namespace StackMachine

namespace DataMemory

/-- An operation of data memory. -/
inductive Operation where
  | push (w : Word)
  | pop
  | peek
  | load (address : Int)
  | store (address : Int) (w : Word)
  deriving DecidableEq, Repr

/-- What an operation replies. -/
inductive Reply where
  | done
  | word (w : Word)
  | top (w? : Option Word)
  | fault (f : Fault)
  deriving DecidableEq, Repr

/-- The reply of an operation and the memory after it. -/
def perform (d : DataMemory) : Operation → Reply × DataMemory
  | .push w =>
    match d.push w with
    | .ok e => (.done, e)
    | .error f => (.fault f, d)
  | .pop => (.word d.pop.1, d.pop.2)
  | .peek => (.top d.peek?, d)
  | .load address =>
    match d.load address with
    | .ok w => (.word w, d)
    | .error f => (.fault f, d)
  | .store address w =>
    match d.store address w with
    | .ok e => (.done, e)
    | .error f => (.fault f, d)

/-- The memory after a sequence of operations. -/
def performAll (d : DataMemory) (ops : List Operation) : DataMemory :=
  ops.foldl (fun d op => (d.perform op).2) d

/-- An operation that fails changes nothing. -/
theorem perform_fault {d : DataMemory} {op : Operation} {f : Fault}
    (h : (d.perform op).1 = .fault f) : (d.perform op).2 = d := by
  cases op <;> simp only [perform] at h ⊢
  case push w => split <;> simp_all
  case load address => split <;> rfl
  case store address w => split <;> simp_all
  case pop => cases h

end DataMemory

/-- An operand stack as a list, top first; the mark, and how many pops found the list empty. -/
structure ListStack where
  words : List Word
  mark : Nat
  missed : Nat
  deriving DecidableEq, Repr

namespace ListStack
open DataMemory (Operation Reply)

def empty : ListStack := ⟨[], 0, 0⟩

/-- The address of the top of the list in a memory of the given capacity. -/
def base (capacity : Nat) (a : ListStack) : Int := capacity - a.words.length

/-- Whether there is room for one more word above the mark. -/
def HasRoom (capacity : Nat) (a : ListStack) : Prop := a.base capacity - 1 > a.mark

instance (capacity : Nat) (a : ListStack) : Decidable (a.HasRoom capacity) :=
  inferInstanceAs (Decidable (_ > _))

/-- The list after an operation. -/
def next (capacity : Nat) (a : ListStack) : Operation → ListStack
  | .push w => if a.HasRoom capacity then { a with words := w :: a.words } else a
  | .pop =>
    match a.words with
    | [] => { a with missed := a.missed + 1 }
    | _ :: rest => { a with words := rest }
  | .peek => a
  | .load _ => a
  | .store address w =>
    if 0 ≤ address ∧ address < capacity then
      { a with
        words :=
          if a.base capacity ≤ address then a.words.set (address - a.base capacity).toNat w
          else a.words
        mark := max a.mark address.toNat }
    else a

/-- The replies that an operation may give. The list does not know what storage holds, so a load
from below the list may give any word. -/
def MayReply (capacity : Nat) (a : ListStack) : Operation → Reply → Prop
  | .push _, r =>
    r = if a.HasRoom capacity then .done
      else .fault (.stackCollision (a.base capacity - 1) a.mark)
  | .pop, r => r = .word (a.words.headD 0)
  | .peek, r => r = .top a.words.head?
  | .load address, r =>
    if 0 ≤ address ∧ address < capacity then
      ∃ w, r = .word w ∧
        (a.base capacity ≤ address → a.words[(address - a.base capacity).toNat]? = some w)
    else r = .fault (.addressOutOfRange address)
  | .store address _, r =>
    r = if 0 ≤ address ∧ address < capacity then .done else .fault (.addressOutOfRange address)

/-- The list after a sequence of operations. -/
def nextAll (capacity : Nat) (a : ListStack) (ops : List Operation) : ListStack :=
  ops.foldl (fun a op => a.next capacity op) a

end ListStack

namespace DataMemory

/-- The memory holds exactly the list, the mark and the count. -/
structure Refines (capacity : Nat) (d : DataMemory) (a : ListStack) : Prop where
  sound : d.Sound
  capacity_eq : d.capacity = capacity
  stack_eq : d.stack = a.words
  limit_eq : d.limit = a.mark
  underflows_eq : d.underflows = a.missed

namespace Refines

variable {capacity : Nat} {d : DataMemory} {a : ListStack}

theorem empty (h : capacity < 2 ^ 63) : Refines capacity (.empty capacity) .empty := by
  refine ⟨sound_empty h, capacity_empty capacity, ?_, rfl, rfl⟩
  simp [DataMemory.empty, ListStack.empty, stack]

theorem depth_eq (h : Refines capacity d a) : d.depth = a.words.length := by
  rw [← h.stack_eq, length_stack]

theorem base_eq (h : Refines capacity d a) : a.base capacity = d.sp := by
  have hd := h.depth_eq
  have hle := h.sound.sp_le
  unfold depth at hd
  unfold ListStack.base
  rw [← h.capacity_eq]; omega

theorem hasRoom_iff (h : Refines capacity d a) : a.HasRoom capacity ↔ d.limit + 1 < d.sp := by
  unfold ListStack.HasRoom
  rw [h.base_eq, h.limit_eq]; omega

/-! ## One operation -/

theorem push (h : Refines capacity d a) (w : Word) :
    Refines capacity (d.perform (.push w)).2 (a.next capacity (.push w)) ∧
      a.MayReply capacity (.push w) (d.perform (.push w)).1 := by
  simp only [perform, ListStack.next, ListStack.MayReply]
  rw [push_eq h.sound]
  by_cases hlt : d.limit + 1 < d.sp
  · rw [if_pos hlt, if_pos (h.hasRoom_iff.mpr hlt), if_pos (h.hasRoom_iff.mpr hlt)]
    refine ⟨⟨h.sound.pushed hlt, ?_, ?_, h.limit_eq, h.underflows_eq⟩, rfl⟩
    · rw [capacity_pushed, h.capacity_eq]
    · rw [stack_pushed d w (by omega) h.sound.sp_le, h.stack_eq]
  · have hno : ¬ a.HasRoom capacity := fun hr => hlt (h.hasRoom_iff.mp hr)
    rw [if_neg hlt, if_neg hno, if_neg hno, h.base_eq, h.limit_eq]
    exact ⟨h, rfl⟩

theorem pop (h : Refines capacity d a) :
    Refines capacity (d.perform .pop).2 (a.next capacity .pop) ∧
      a.MayReply capacity .pop (d.perform .pop).1 := by
  simp only [perform, ListStack.next, ListStack.MayReply]
  rw [pop_word, h.stack_eq]
  have hdepth := h.depth_eq
  unfold depth at hdepth
  refine ⟨⟨h.sound.pop, ?_, ?_, ?_, ?_⟩, rfl⟩
  · rw [capacity_pop, h.capacity_eq]
  · rw [stack_pop, h.stack_eq]; split <;> simp_all
  · rw [limit_pop, h.limit_eq]; split <;> rfl
  · rw [underflows_pop, h.underflows_eq]
    cases hw : a.words <;> rw [hw] at hdepth <;> simp only [List.length] at hdepth
    · rw [if_neg (by omega)]
    · rw [if_pos (by omega)]

theorem load (h : Refines capacity d a) (address : Int) :
    Refines capacity (d.perform (.load address)).2 (a.next capacity (.load address)) ∧
      a.MayReply capacity (.load address) (d.perform (.load address)).1 := by
  simp only [perform, ListStack.next, ListStack.MayReply]
  have hcap := h.capacity_eq
  cases hl : d.load address with
  | ok w =>
    obtain ⟨i, rfl, hw⟩ := load_eq_ok_iff.mp hl
    have hlt : i < d.capacity := (Array.getElem?_eq_some_iff.mp hw).1
    rw [if_pos (by omega)]
    refine ⟨h, w, rfl, fun hle => ?_⟩
    rw [h.base_eq] at hle ⊢
    rw [← h.stack_eq, getElem?_stack, ← hw]
    congr 1; omega
  | error f =>
    obtain ⟨hout, rfl⟩ := load_error hl
    rw [if_neg (by omega)]
    exact ⟨h, rfl⟩

theorem store (h : Refines capacity d a) (address : Int) (w : Word) :
    Refines capacity (d.perform (.store address w)).2 (a.next capacity (.store address w)) ∧
      a.MayReply capacity (.store address w) (d.perform (.store address w)).1 := by
  simp only [perform, ListStack.next, ListStack.MayReply, store_eq]
  have hcap := h.capacity_eq
  cases hi : d.index? address with
  | some i =>
    obtain ⟨rfl, hlt⟩ := index?_eq_some_iff.mp hi
    have hin : 0 ≤ (i : Int) ∧ (i : Int) < capacity := by omega
    simp only [if_pos hin]
    refine ⟨⟨h.sound.stored hlt w, ?_, ?_, ?_, h.underflows_eq⟩, trivial⟩
    · rw [capacity_stored, hcap]
    · rw [stack_stored, h.stack_eq, h.base_eq]
      by_cases hle : d.sp ≤ i
      · rw [if_pos hle, if_pos (by omega)]; congr 1; omega
      · rw [if_neg hle, if_neg (by omega)]
    · simp only [stored, h.limit_eq, Int.toNat_natCast]
  | none =>
    have hout := index?_eq_none_iff.mp hi
    rw [hcap] at hout
    simp only [if_neg hout]
    exact ⟨h, trivial⟩

end Refines

/-- Every operation of data memory is matched by the same operation of the list, and replies what
the list asks for. -/
theorem perform_refines {capacity : Nat} {d : DataMemory} {a : ListStack}
    (h : Refines capacity d a) (op : Operation) :
    Refines capacity (d.perform op).2 (a.next capacity op) ∧
      a.MayReply capacity op (d.perform op).1 := by
  cases op with
  | push w => exact h.push w
  | pop => exact h.pop
  | peek => exact ⟨h, by simp only [perform, ListStack.MayReply, peek?_eq_head?, h.stack_eq]⟩
  | load address => exact h.load address
  | store address w => exact h.store address w

theorem performAll_refines {capacity : Nat} (ops : List Operation) :
    ∀ {d : DataMemory} {a : ListStack}, Refines capacity d a →
      Refines capacity (d.performAll ops) (a.nextAll capacity ops) := by
  induction ops with
  | nil => exact fun h => h
  | cons op ops ih => exact fun h => ih (perform_refines h op).1

/-- **Refinement.** After any sequence of operations on an empty memory of less than 2^63 words,
the operand stack is the list after the same operations, `sp` is the capacity less its length, and
the mark and the count of missed pops are the list's. The next operation, whichever it is, replies
what the list asks for, and changes nothing if it fails. -/
theorem refines_listStack {capacity : Nat} (h : capacity < 2 ^ 63) (ops : List Operation) :
    let d := (DataMemory.empty capacity).performAll ops
    let a := ListStack.empty.nextAll capacity ops
    d.stack = a.words ∧ (d.sp : Int) = capacity - a.words.length ∧ d.depth = a.words.length ∧
      d.limit = a.mark ∧ d.underflows = a.missed ∧
      ∀ op, a.MayReply capacity op (d.perform op).1 ∧
        ∀ f, (d.perform op).1 = .fault f → (d.perform op).2 = d := by
  intro d a
  have hr : Refines capacity d a := performAll_refines ops (Refines.empty h)
  refine ⟨hr.stack_eq, hr.base_eq.symm, hr.depth_eq, hr.limit_eq, hr.underflows_eq, fun op => ?_⟩
  exact ⟨(perform_refines hr op).2, fun f hf => perform_fault hf⟩

/-- A store into the stack of a memory of three words, after which there is no room to push. -/
theorem refines_listStack_store_in_stack :
    3 < 2 ^ 63 ∧
      let d := (DataMemory.empty 3).performAll [.push 5, .store 2 7]
      d.stack = [7] ∧ d.sp = 2 ∧ d.depth = 1 ∧ d.limit = 2 ∧ d.underflows = 0 ∧
        (d.perform (.push 9)).1 = .fault (.stackCollision 1 2) ∧ (d.perform (.push 9)).2 = d := by
  refine ⟨by decide, ?_⟩
  obtain ⟨hstack, hsp, hdepth, hlimit, hunder, hreply⟩ :=
    @refines_listStack 3 (by decide) [.push 5, .store 2 7]
  have hfault := (hreply (.push 9)).1
  refine ⟨hstack, Int.natCast_inj.mp hsp, hdepth, hlimit, hunder, hfault, ?_⟩
  exact (hreply (.push 9)).2 _ hfault

end DataMemory

end StackMachine
