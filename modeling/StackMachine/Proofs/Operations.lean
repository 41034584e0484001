import Mathlib.Data.Int.Bitwise
import StackMachine.Proofs.Arity
import StackMachine.Proofs.DeadCells
import StackMachine.Proofs.Word

/-!
# What operations compute

An operation means a number, computed from the numbers of its operands without any width: `value`.
Its result is the one word congruent to that number modulo 2^32.

* `UnaryOp.eval_modEq`, `BinaryOp.eval?_modEq`: so it is for every operation on every word;
* `operations_compute`: what the step of an operation takes off the stack and puts there.
-/
namespace StackMachine

/-! ## Truth values -/

namespace Word

theorem toInt_eq_zero_iff {w : Word} : w.toInt = 0 ↔ w = 0 := by
  rw [← Int32.toInt_inj]
  rfl

theorem toInt_ofBool (b : Bool) : (ofBool b).toInt = if b then 1 else 0 := by
  cases b <;> rfl

end Word

/-! ## Bits -/

/-- Numbers with the same bits are the same. -/
theorem eq_of_testBit_eq {m n : Int} (h : ∀ i, m.testBit i = n.testBit i) : m = n := by
  have far (m n : Nat) : m.testBit (m + n) = false :=
    Nat.testBit_lt_two_pow (Nat.lt_of_le_of_lt (Nat.le_add_right m n) Nat.lt_two_pow_self)
  -- Far enough to the left a number has nothing but its sign.
  have mixed (m n : Nat) : ∃ i, (Int.ofNat m).testBit i ≠ (Int.negSucc n).testBit i := by
    refine ⟨m + n, ?_⟩
    simp only [Int.testBit]
    rw [far, Nat.add_comm, far]
    decide
  cases m with
  | ofNat m =>
    cases n with
    | ofNat n => exact congrArg Int.ofNat (Nat.eq_of_testBit_eq h)
    | negSucc n =>
      obtain ⟨i, hi⟩ := mixed m n
      exact absurd (h i) hi
  | negSucc m =>
    cases n with
    | ofNat n =>
      obtain ⟨i, hi⟩ := mixed n m
      exact absurd (h i).symm hi
    | negSucc n =>
      refine congrArg Int.negSucc (Nat.eq_of_testBit_eq fun i => ?_)
      have hi := h i
      simp only [Int.testBit] at hi
      exact Bool.not_inj hi

/-- The bits of the number of a word are those of the word, and then its sign for ever. -/
theorem Word.testBit_toInt (w : Word) (i : Nat) :
    w.toInt.testBit i = if i < 32 then w.toBitVec.getLsbD i else w.toBitVec.msb := by
  have hlt := w.toBitVec.isLt
  rw [← Int32.toInt_toBitVec, BitVec.toInt_eq_msb_cond]
  cases hmsb : w.toBitVec.msb with
  | false =>
    show w.toBitVec.toNat.testBit i = _
    rw [BitVec.testBit_toNat]
    split
    · rfl
    · exact BitVec.getLsbD_of_ge _ _ (by omega)
  | true =>
    have hneg : (w.toBitVec.toNat : Int) - ((2 ^ 32 : Nat) : Int) =
        Int.negSucc (~~~w.toBitVec).toNat := by
      rw [BitVec.toNat_not]
      omega
    rw [if_pos rfl, hneg]
    show (!(~~~w.toBitVec).toNat.testBit i) = _
    rw [BitVec.testBit_toNat, BitVec.getLsbD_not]
    split <;> rename_i hi <;> simp [hi]

/-- A word put together bit by bit is, as a number, put together bit by bit. -/
theorem Word.toInt_bitwise {f : Bool → Bool → Bool} {l r w : Word}
    (hbit : ∀ i, w.toBitVec.getLsbD i = f (l.toBitVec.getLsbD i) (r.toBitVec.getLsbD i))
    (hmsb : w.toBitVec.msb = f l.toBitVec.msb r.toBitVec.msb) :
    w.toInt = Int.bitwise f l.toInt r.toInt := by
  apply eq_of_testBit_eq
  intro i
  rw [Int.testBit_bitwise, testBit_toInt, testBit_toInt, testBit_toInt]
  split
  · exact hbit i
  · exact hmsb

theorem Word.toInt_or (l r : Word) : (l ||| r).toInt = l.toInt.lor r.toInt := by
  rw [← Int.bitwise_or]
  exact toInt_bitwise (fun _ => BitVec.getLsbD_or) BitVec.msb_or

theorem Word.toInt_and (l r : Word) : (l &&& r).toInt = l.toInt.land r.toInt := by
  rw [← Int.bitwise_and]
  exact toInt_bitwise (fun _ => BitVec.getLsbD_and) BitVec.msb_and

theorem Word.toInt_xor (l r : Word) : (l ^^^ r).toInt = l.toInt.xor r.toInt := by
  rw [← Int.bitwise_xor]
  exact toInt_bitwise (fun _ => BitVec.getLsbD_xor) BitVec.msb_xor

/-! ## Values -/

/-- The number that an operation means. `shr` halves the unsigned reading, `sar` the signed one. -/
def UnaryOp.value : UnaryOp → Int → Int
  | .neg, v => -v
  | .not, v => -v - 1
  | .shl, v => 2 * v
  | .shr, v => v % 2 ^ 32 / 2
  | .sar, v => v.fdiv 2

/-- The number that an operation means. Quotients are truncated toward zero, and a remainder is what
the quotient leaves. -/
def BinaryOp.value : BinaryOp → Int → Int → Int
  | .add, l, r => l + r
  | .sub, l, r => l - r
  | .mpy, l, r => l * r
  | .div, l, r => l.tdiv r
  | .mod, l, r => l - r * l.tdiv r
  | .or, l, r => if l ≠ 0 ∨ r ≠ 0 then 1 else 0
  | .and, l, r => if l ≠ 0 ∧ r ≠ 0 then 1 else 0
  | .eq, l, r => if l = r then 1 else 0
  | .ne, l, r => if l ≠ r then 1 else 0
  | .gt, l, r => if l > r then 1 else 0
  | .ge, l, r => if l ≥ r then 1 else 0
  | .lt, l, r => if l < r then 1 else 0
  | .le, l, r => if l ≤ r then 1 else 0
  | .orb, l, r => l.lor r
  | .andb, l, r => l.land r
  | .xorb, l, r => l.xor r

theorem UnaryOp.eval_modEq (op : UnaryOp) (v : Word) :
    (op.eval v).toInt ≡ op.value v.toInt [ZMOD 2 ^ 32] := by
  have hone : (1 : Word).toBitVec.smod 32 = 1 := rfl
  cases op with
  | neg =>
    show (-v).toInt ≡ _ [ZMOD _]
    rw [Int32.toInt_neg]
    exact Word.bmod_modEq _
  | not =>
    show (~~~v).toInt ≡ _ [ZMOD _]
    rw [Int32.toInt_not]
    exact Word.bmod_modEq _
  | shl =>
    show (v <<< 1).toInt ≡ 2 * v.toInt [ZMOD _]
    have hshift : (v <<< 1).toInt = ((2 * v.toUInt32.toNat : Nat) : Int).bmod (2 ^ 32) := by
      rw [← Int32.toInt_toBitVec, Int32.toBitVec_shiftLeft, hone]
      show (v.toBitVec <<< 1).toInt = _
      rw [BitVec.toInt_shiftLeft, Nat.shiftLeft_eq, Int32.toNat_toBitVec, Nat.mul_comm]
    rw [hshift]
    refine (Word.bmod_modEq _).trans ?_
    push_cast
    exact v.toInt_modEq_toNat.symm.mul_left 2
  | shr =>
    show (v.toUInt32 >>> 1).toInt32.toInt ≡ v.toInt % 2 ^ 32 / 2 [ZMOD _]
    have hshift : (v.toUInt32 >>> 1).toInt32.toInt = ((v.toUInt32.toNat / 2 : Nat) : Int) := by
      rw [← Int32.toInt_toBitVec, UInt32.toBitVec_toInt32, UInt32.toBitVec_shiftRight]
      show (v.toUInt32.toBitVec >>> 1).toInt = _
      rw [BitVec.toInt_ushiftRight, if_neg (by decide), Nat.shiftRight_eq_div_pow]
      rfl
    rw [hshift, v.toInt_emod]
    rfl
  | sar =>
    show (v >>> 1).toInt ≡ v.toInt.fdiv 2 [ZMOD _]
    have hshift : (v >>> 1).toInt = v.toInt.fdiv 2 := by
      rw [← Int32.toInt_toBitVec, Int32.toBitVec_shiftRight, hone]
      show (v.toBitVec.sshiftRight 1).toInt = _
      rw [BitVec.toInt_sshiftRight, Int.shiftRight_eq_div_pow, Int32.toInt_toBitVec,
        Int.fdiv_eq_ediv_of_nonneg _ (by decide)]
      rfl
    rw [hshift]

theorem BinaryOp.eval?_modEq {op : BinaryOp} {l r w : Word} (h : op.eval? l r = some w) :
    w.toInt ≡ op.value l.toInt r.toInt [ZMOD 2 ^ 32] := by
  have hl : l ≠ 0 ↔ l.toInt ≠ 0 := not_congr Word.toInt_eq_zero_iff.symm
  have hr : r ≠ 0 ↔ r.toInt ≠ 0 := not_congr Word.toInt_eq_zero_iff.symm
  cases op with
  | add =>
    cases h
    rw [Int32.toInt_add]
    exact Word.bmod_modEq _
  | sub =>
    cases h
    rw [Int32.toInt_sub]
    exact Word.bmod_modEq _
  | mpy =>
    cases h
    rw [Int32.toInt_mul]
    exact Word.bmod_modEq _
  | div =>
    simp only [eval?] at h
    split at h <;> cases h
    rw [Int32.toInt_div]
    exact Word.bmod_modEq _
  | mod =>
    simp only [eval?] at h
    split at h <;> cases h
    rw [Int32.toInt_mod, Int.tmod_def]
    rfl
  | orb =>
    cases h
    rw [Word.toInt_or]
    rfl
  | andb =>
    cases h
    rw [Word.toInt_and]
    rfl
  | xorb =>
    cases h
    rw [Word.toInt_xor]
    rfl
  | or | and | eq | ne | gt | ge | lt | le =>
    cases h
    rw [Word.toInt_ofBool]
    simp [value, hl, hr, Int32.lt_iff_toInt_lt, Int32.le_iff_toInt_le, Int32.toInt_inj]

example :
    BinaryOp.eval? .div Int32.minValue (-1) = some Int32.minValue ∧
      BinaryOp.eval? .mod Int32.minValue (-1) = some 0 := by decide

/-! ## Steps -/

/-- A push has no divisor. -/
theorem DataMemory.push_ne_divisionByZero {d : DataMemory} {w : Word} {f : Fault}
    (h : d.push w = .error f) (site : Address) : f ≠ .divisionByZero site := by
  unfold push at h
  split at h
  · cases h
    nofun
  · split at h <;> cases h
    nofun

namespace Session

open DataMemory

variable {s : Session}

/-- The next step takes `taken` words off the stack and puts the word there that is congruent to
`v`. Nothing but this push can fail. -/
def Yields (s : Session) (taken : Nat) (v : Int) : Prop :=
  ∃ w : Word, w.toInt ≡ v [ZMOD 2 ^ 32] ∧
    match (dropped taken s.machine.data).push w with
    | .ok _ =>
      s.fault? = none ∧ s.next.machine.data.stack = w :: s.machine.data.stack.drop taken
    | .error f => s.fault? = some f ∧ ∀ site, f ≠ .divisionByZero site

/-- A step yields what it pushes after it took its operands. -/
theorem yields_of_step {taken : Nat} {v : Int} {w word : Word}
    (hw : w.toInt ≡ v [ZMOD 2 ^ 32])
    (hstep : step s = push w ((s.fetched word).withData (dropped taken s.machine.data))) :
    s.Yields taken v := by
  refine ⟨w, hw, ?_⟩
  unfold fault? next
  rw [hstep, push_apply]
  simp only [withData]
  cases hpush : (dropped taken s.machine.data).push w with
  | ok d =>
    obtain ⟨hpos, hle, rfl⟩ := pushed_of_push_ok hpush
    exact ⟨rfl, by rw [← stack_dropped]; exact stack_pushed _ w hpos hle⟩
  | error f => exact ⟨rfl, push_ne_divisionByZero hpush⟩

/-- **Operations.** Take any session whose next instruction is an operation. One on one word takes
the top of the stack and yields its value. One on two words takes the top, which is its right
operand, and the word below, its left one, and yields its value, unless it is a division or a
remainder by zero: that fails, at the instruction, and has taken both words. A word that the stack
lacks counts as zero. -/
theorem operations_compute (s : Session) :
    (∀ op n, s.instruction? = some ⟨.unary op, n⟩ →
      s.Yields 1 (op.value (s.machine.data.operand 0).toInt)) ∧
    ∀ op n, s.instruction? = some ⟨.binary op, n⟩ →
      if op.divides = true ∧ s.machine.data.operand 0 = 0 then
        s.fault? = some (.divisionByZero (.code s.machine.pc)) ∧
          s.next.machine.data.stack = s.machine.data.stack.drop 2
      else
        s.Yields 2 (op.value (s.machine.data.operand 1).toInt (s.machine.data.operand 0).toInt) := by
  refine ⟨fun op n hi => ?_, fun op n hi => ?_⟩
  · obtain ⟨word, -, hstep⟩ := step_of_instruction? hi
    rw [execute_unary rfl] at hstep
    exact yields_of_step (op.eval_modEq _) hstep
  · obtain ⟨word, -, hstep⟩ := step_of_instruction? hi
    rw [execute_binary rfl] at hstep
    simp only [fetched] at hstep
    cases hv : op.eval? (s.machine.data.operand 1) (s.machine.data.operand 0) with
    | some w =>
      rw [hv] at hstep
      rw [if_neg fun h => by rw [BinaryOp.eval?_eq_none_iff.mpr h] at hv; cases hv]
      exact yields_of_step (BinaryOp.eval?_modEq hv) hstep
    | none =>
      rw [hv] at hstep
      rw [if_pos (BinaryOp.eval?_eq_none_iff.mp hv)]
      unfold fault? next
      rw [hstep]
      exact ⟨rfl, stack_dropped 2 _⟩

/-- A program that divides the least word by minus one, both read from the console, and halves the
quotient. -/
def dividingLeast : Session :=
  ⟨.fresh ⟨4, 4⟩
      (.assemble [⟨.read, 0⟩, ⟨.read, 0⟩, ⟨.binary .div, 0⟩, ⟨.unary .sar, 0⟩]),
    ⟨[], ["-2147483648".toList, "-1".toList]⟩, .empty none⟩

theorem operations_compute_dividingLeast :
    (advance 2 dividingLeast).machine.data.stack = [-1, Int32.minValue] ∧
      (advance 2 dividingLeast).fault? = none ∧
      (advance 3 dividingLeast).machine.data.stack = [Int32.minValue] ∧
      (advance 3 dividingLeast).fault? = none ∧
      (advance 4 dividingLeast).machine.data.stack = [-1073741824] := by
  have hdiv : (advance 2 dividingLeast).instruction? = some ⟨.binary .div, 0⟩ := rfl
  have hsar : (advance 3 dividingLeast).instruction? = some ⟨.unary .sar, 0⟩ := rfl
  have hquotient := (operations_compute (advance 2 dividingLeast)).2 .div 0 hdiv
  rw [if_neg (by decide)] at hquotient
  obtain ⟨w, hw, hwpush⟩ := hquotient
  obtain rfl : w = Int32.minValue := Word.eq_of_modEq hw
  obtain ⟨v, hv, hvpush⟩ := (operations_compute (advance 3 dividingLeast)).1 .sar 0 hsar
  obtain rfl : v = -1073741824 := Word.eq_of_modEq hv
  exact ⟨by decide, hwpush.1, hwpush.2, hvpush.1, hvpush.2⟩

end Session

end StackMachine
