import StackMachine.Proofs.DeadCells
import StackMachine.Proofs.ListStack
import StackMachine.Proofs.Storage

/-!
# Pushes at any mark

The mark can be raised without a store, to any unsigned 64-bit number, so it need not be an address
of the memory. A push reads it as a signed number: a mark of 2^63 or more is negative, and no longer
keeps the stack from growing down to address zero.

* `Request`: the operations of data memory and the raising of the mark;
* `Within`: what every request keeps; `limit_answer`: what it does to the mark;
* `push_cases`: the three ways that a push goes;
* `push_outcome`: which of them it is after any sequence of requests.
-/
namespace StackMachine

/-- The signed reading of a number is that of a 64-bit register. -/
theorem signed64_eq_toInt {n : Nat} (h : n < 2 ^ 64) :
    signed64 n = (UInt64.ofNat n).toInt64.toInt := by
  have hnat : (UInt64.ofNat n).toInt64.toBitVec.toNat = n := by
    rw [UInt64.toBitVec_toInt64]
    exact UInt64.toNat_ofNat_of_lt' h
  rw [← Int64.toInt_toBitVec, BitVec.toInt_eq_toNat_cond, hnat]
  unfold signed64
  split <;> split <;> omega

/-- In a register, an address less one is that number. -/
theorem toInt_ofNat_sub_one {n : Nat} (h : n < 2 ^ 63) :
    ((UInt64.ofNat n).toInt64 - 1).toInt = (n : Int) - 1 := by
  have hn : (UInt64.ofNat n).toInt64.toInt = n := by
    rw [← signed64_eq_toInt (by omega)]
    exact if_pos h
  rw [Int64.toInt_sub, hn]
  show ((n : Int) - 1).bmod (2 ^ 64) = _
  apply Int.bmod_eq_of_le <;> omega

namespace DataMemory

/-! ## Requests -/

/-- An operation, or the raising of the mark to any unsigned 64-bit number. -/
inductive Request where
  | operation (op : Operation)
  | record (address : UInt64)
  deriving DecidableEq, Repr

/-- The reply to a request and the memory after it. -/
def answer (d : DataMemory) : Request → Reply × DataMemory
  | .operation op => d.perform op
  | .record address => (.done, d.recordStore address.toNat)

/-- The memory after a sequence of requests. -/
def answerAll (d : DataMemory) (requests : List Request) : DataMemory :=
  requests.foldl (fun d r => (d.answer r).2) d

/-- The address that a request stores to or records, if it succeeds in that. -/
def recorded? (d : DataMemory) : Request → Option Nat
  | .operation (.store address w) =>
    match d.store address w with
    | .ok _ => some address.toNat
    | .error _ => none
  | .operation _ => none
  | .record address => some address.toNat

/-- The addresses that a sequence of requests stores to or records, in order. -/
def recorded (d : DataMemory) : List Request → List Nat
  | [] => []
  | r :: rest => (d.recorded? r).toList ++ (d.answer r).2.recorded rest

/-! ## What requests keep -/

/-- The memory has its size, the stack lies in it, and the mark is an unsigned 64-bit number. -/
structure Within (capacity : Nat) (d : DataMemory) : Prop where
  capacity_eq : d.capacity = capacity
  sp_le : d.sp ≤ capacity
  limit_lt : d.limit < 2 ^ 64

variable {capacity : Nat} {d : DataMemory}

theorem within_empty (capacity : Nat) : Within capacity (.empty capacity) :=
  ⟨capacity_empty capacity, Nat.le_refl _, show 0 < 2 ^ 64 by decide⟩

theorem Within.pop (h : Within capacity d) : Within capacity d.pop.2 := by
  have hcapacity := h.capacity_eq
  have hle := h.sp_le
  refine ⟨by rw [capacity_pop, hcapacity], ?_, by rw [limit_pop]; exact h.limit_lt⟩
  rw [sp_pop]
  split <;> omega

theorem Within.pushed (h : Within capacity d) (w : Word) : Within capacity (d.pushed w) := by
  have hle := h.sp_le
  refine ⟨by rw [capacity_pushed, h.capacity_eq], ?_, h.limit_lt⟩
  simp only [DataMemory.pushed]
  omega

theorem Within.stored (h : Within capacity d) (hlt : capacity < 2 ^ 63) {i : Nat}
    (hi : i < d.capacity) (w : Word) : Within capacity (d.stored i w) := by
  have hcapacity := h.capacity_eq
  have hlimit := h.limit_lt
  refine ⟨by rw [capacity_stored, hcapacity], h.sp_le, ?_⟩
  simp only [DataMemory.stored]
  omega

theorem Within.recordStore (h : Within capacity d) (address : UInt64) :
    Within capacity (d.recordStore address.toNat) :=
  ⟨h.capacity_eq, h.sp_le, Nat.max_lt.mpr ⟨h.limit_lt, address.toNat_lt⟩⟩

/-- Every request keeps the memory within its bounds, whatever it replies. -/
theorem Within.answer (h : Within capacity d) (hlt : capacity < 2 ^ 63) (r : Request) :
    Within capacity (d.answer r).2 := by
  cases r with
  | record address => exact h.recordStore address
  | operation op =>
    simp only [DataMemory.answer]
    cases op <;> simp only [perform]
    case push w =>
      cases hp : d.push w with
      | ok e =>
        obtain ⟨-, -, rfl⟩ := pushed_of_push_ok hp
        exact h.pushed w
      | error f => exact h
    case pop => exact h.pop
    case peek => exact h
    case load address => split <;> exact h
    case store address w =>
      rw [store_eq]
      cases hi : d.index? address with
      | some i => exact h.stored hlt (index?_eq_some_iff.mp hi).2 w
      | none => exact h

theorem Within.answerAll (hlt : capacity < 2 ^ 63) (requests : List Request) :
    ∀ {d : DataMemory}, Within capacity d → Within capacity (d.answerAll requests) := by
  induction requests with
  | nil => exact id
  | cons r rest ih => exact fun h => ih (h.answer hlt r)

/-! ## The mark -/

/-- A request raises the mark to the address that it stores to or records, and not otherwise. -/
theorem limit_answer (d : DataMemory) (r : Request) :
    (d.answer r).2.limit = max d.limit (highest (d.recorded? r).toList) := by
  have same : d.limit = max d.limit (highest []) := (Nat.max_zero _).symm
  cases r with
  | record address => exact congrArg (max d.limit) (Nat.max_zero _).symm
  | operation op =>
    simp only [answer]
    cases op <;> simp only [perform, recorded?]
    case push w =>
      cases hp : d.push w with
      | ok e =>
        obtain ⟨-, -, rfl⟩ := pushed_of_push_ok hp
        exact same
      | error f => exact same
    case pop => exact (limit_pop d).trans same
    case peek => exact same
    case load address => split <;> exact same
    case store address w =>
      rw [store_eq]
      cases hi : d.index? address with
      | some i =>
        obtain ⟨rfl, -⟩ := index?_eq_some_iff.mp hi
        exact congrArg (max d.limit) (Nat.max_zero _).symm
      | none => exact same

theorem highest_append (a b : List Nat) : highest (a ++ b) = max (highest a) (highest b) := by
  induction a with
  | nil => exact (Nat.zero_max _).symm
  | cons n a ih =>
    unfold highest at ih ⊢
    rw [List.cons_append, List.foldr_cons, List.foldr_cons, ih, Nat.max_assoc]

theorem limit_answerAll (requests : List Request) : ∀ d : DataMemory,
    (d.answerAll requests).limit = max d.limit (highest (d.recorded requests)) := by
  induction requests with
  | nil => exact fun d => (Nat.max_zero _).symm
  | cons r rest ih =>
    intro d
    show ((d.answer r).2.answerAll rest).limit = _
    rw [ih, limit_answer, recorded, highest_append, Nat.max_assoc]

/-! ## Pushes -/

/-- From the one memory to the other, a word was put on the stack and nothing else was done. -/
structure PutOn (w : Word) (d e : DataMemory) : Prop where
  sp_eq : e.sp + 1 = d.sp
  word_eq : e.cells[e.sp]? = some w
  cells_eq : ∀ i, i ≠ e.sp → e.cells[i]? = d.cells[i]?
  limit_eq : e.limit = d.limit
  underflows_eq : e.underflows = d.underflows

theorem putOn_pushed (w : Word) (hpos : 0 < d.sp) (hle : d.sp ≤ d.capacity) :
    PutOn w d (d.pushed w) := by
  unfold capacity at hle
  refine ⟨?_, ?_, fun i hi => ?_, rfl, rfl⟩ <;> simp only [pushed] at *
  · omega
  · exact Array.getElem?_setIfInBounds_self_of_lt (by omega)
  · exact Array.getElem?_setIfInBounds_ne (Ne.symm hi)

/-- A push collides at the mark, or finds no address below the stack although the mark lies lower
still, or succeeds. -/
theorem push_cases (hle : d.sp ≤ d.capacity) (w : Word) :
    ((d.sp : Int) - 1 ≤ signed64 d.limit ∧
      d.push w = .error (.stackCollision ((d.sp : Int) - 1) d.limit)) ∨
    (d.sp = 0 ∧ signed64 d.limit < -1 ∧ d.push w = .error .memoryExhausted) ∨
    (signed64 d.limit < (d.sp : Int) - 1 ∧ 0 < d.sp ∧ d.push w = .ok (d.pushed w)) := by
  unfold capacity at hle
  unfold push
  by_cases hmark : (d.sp : Int) - 1 ≤ signed64 d.limit
  · exact .inl ⟨hmark, if_pos hmark⟩
  · rw [if_neg hmark]
    by_cases hzero : d.sp = 0
    · exact .inr (.inl ⟨hzero, by omega, if_pos (.inl hzero)⟩)
    · exact .inr (.inr ⟨by omega, by omega, if_neg (by omega)⟩)

/-- **Pushes.** After any sequence of operations on an empty memory of less than 2^63 words, in
which the mark may have been raised to any unsigned 64-bit numbers, the stack lies in the memory,
the memory has its size, the mark is the highest address stored to or recorded, and the place of the
next push is the same number in a register. Let `m` be the mark as a signed 64-bit number. The push
collides exactly if its place is at most `m`, and finds memory exhausted exactly if there is no
place and `m` is less than -1. Otherwise it puts its word on the stack and does nothing else. A push
that fails changes nothing. -/
theorem push_outcome {capacity : Nat} (h : capacity < 2 ^ 63) (requests : List Request) :
    let d := (DataMemory.empty capacity).answerAll requests
    let m := (UInt64.ofNat d.limit).toInt64.toInt
    d.sp ≤ capacity ∧ d.cells.size = capacity ∧
    d.limit = highest ((DataMemory.empty capacity).recorded requests) ∧ d.limit < 2 ^ 64 ∧
    ((UInt64.ofNat d.sp).toInt64 - 1).toInt = (d.sp : Int) - 1 ∧
    ∀ w,
      ((d.perform (.push w)).1 = .fault (.stackCollision ((d.sp : Int) - 1) d.limit) ↔
        (d.sp : Int) - 1 ≤ m) ∧
      ((d.perform (.push w)).1 = .fault .memoryExhausted ↔ d.sp = 0 ∧ m < -1) ∧
      ((d.perform (.push w)).1 = .done ↔ ¬ (d.sp : Int) - 1 ≤ m ∧ ¬ (d.sp = 0 ∧ m < -1)) ∧
      ((d.perform (.push w)).1 = .done → PutOn w d (d.perform (.push w)).2) ∧
      ∀ f, (d.perform (.push w)).1 = .fault f → (d.perform (.push w)).2 = d := by
  intro d m
  have hwithin : Within capacity d := .answerAll h requests (within_empty capacity)
  have hcapacity := hwithin.capacity_eq
  have hle := hwithin.sp_le
  have hlimit : d.limit = _ := limit_answerAll requests (.empty capacity)
  have hm : signed64 d.limit = m := signed64_eq_toInt hwithin.limit_lt
  refine ⟨hle, hcapacity, hlimit.trans (Nat.zero_max _), hwithin.limit_lt,
    toInt_ofNat_sub_one (Nat.lt_of_le_of_lt hle h), fun w => ?_⟩
  have hcases := push_cases (hcapacity ▸ hle) w
  rw [hm] at hcases
  simp only [perform]
  rcases hcases with ⟨hmark, hp⟩ | ⟨hzero, hlow, hp⟩ | ⟨hmark, hpos, hp⟩ <;> rw [hp] <;> dsimp only
  · exact ⟨iff_of_true rfl hmark, iff_of_false (by simp) (by omega),
      iff_of_false (by simp) fun hno => hno.1 hmark, by simp, fun _ _ => rfl⟩
  · exact ⟨iff_of_false (by simp) (by omega), iff_of_true rfl ⟨hzero, hlow⟩,
      iff_of_false (by simp) fun hno => hno.2 ⟨hzero, hlow⟩, by simp, fun _ _ => rfl⟩
  · exact ⟨iff_of_false (by simp) (by omega), iff_of_false (by simp) (by omega),
      iff_of_true rfl (by omega), fun _ => putOn_pushed w hpos (hcapacity ▸ hle), by simp⟩

/-- A full memory of one word, whose mark is negative as a signed number: -2, and then -1. -/
theorem push_outcome_negative :
    1 < 2 ^ 63 ∧
      let d := (DataMemory.empty 1).answerAll [.record 0xfffffffffffffffe, .operation (.push 7)]
      d.limit = 0xfffffffffffffffe ∧ d.sp = 0 ∧
        (d.perform (.push 9)).1 = .fault .memoryExhausted ∧ (d.perform (.push 9)).2 = d ∧
        let e := (DataMemory.empty 1).answerAll
          [.record 0xfffffffffffffffe, .operation (.push 7), .record 0xffffffffffffffff]
        (e.perform (.push 9)).1 = .fault (.stackCollision (-1) 0xffffffffffffffff) := by
  refine ⟨by decide, ?_⟩
  obtain ⟨-, -, hlimit, -, -, hpush⟩ := @push_outcome 1 (by decide)
    [.record 0xfffffffffffffffe, .operation (.push 7)]
  obtain ⟨-, -, -, -, -, hpush'⟩ := @push_outcome 1 (by decide)
    [.record 0xfffffffffffffffe, .operation (.push 7), .record 0xffffffffffffffff]
  obtain ⟨-, hexhausted, -, -, hkeep⟩ := hpush 9
  have hfault := hexhausted.mpr ⟨by decide, by decide⟩
  exact ⟨hlimit.trans (by decide), by decide, hfault, hkeep _ hfault, (hpush' 9).1.mpr (by decide)⟩

end DataMemory

end StackMachine
