import StackMachine.Proofs.Word

/-!
# Instructions and their words

The opcodes have the numbers from zero to the last one, without a gap. So a word is that of an
instruction exactly if its upper half is no greater than the last number, and then it is that of one
instruction only, because the halves of a word tell the word.

* `Opcode.ofCode?_eq_some_iff`, `Opcode.ofCode?_eq_none_iff`: what numbers the opcodes have;
* `Word.ofHalves_upper_lower`: a word from its halves; `Word.upper_eq`, `Word.lower_eq`: the halves
  as numbers;
* `decode_eq_ok_iff`, `decode_eq_error_iff`: which words are instructions, and what the others are;
* `decode_inverts_encode`: all of it.
-/
namespace StackMachine

/-! ## Numbers of opcodes -/

namespace Opcode

/-- The number of an opcode is its place. -/
theorem code_of_ofCode? {n : UInt16} {op : Opcode} (h : ofCode? n = some op) : op.code = n := by
  have hplace : ∀ i (hi : i < all.size), all[i].code.toNat = i := by decide
  obtain ⟨hn, rfl⟩ := Array.getElem?_eq_some_iff.mp h
  exact UInt16.toNat_inj.mp (hplace _ hn)

theorem ofCode?_eq_some_iff {n : UInt16} {op : Opcode} : ofCode? n = some op ↔ op.code = n := by
  constructor
  · exact code_of_ofCode?
  · rintro rfl
    exact ofCode?_code op

theorem ofCode?_eq_none_iff {n : UInt16} : ofCode? n = none ↔ maxCode < n := by
  unfold ofCode?
  rw [Array.getElem?_eq_none_iff, UInt16.lt_iff_toNat_lt]
  exact Iff.rfl

end Opcode

/-! ## Halves of words -/

namespace Word

/-- A word is the word with its halves. -/
theorem ofHalves_upper_lower (w : Word) : ofHalves (upper w) (lower w) = w := by
  apply eq_of_toNat
  rw [toNat_ofHalves, toNat_upper, toNat_lower]
  omega

theorem upper_eq (w : Word) : ((upper w).toNat : Int) = w.toInt % 2 ^ 32 / 2 ^ 16 := by
  rw [toInt_emod, toNat_upper]
  rfl

theorem lower_eq (w : Word) : ((lower w).toNat : Int) = w.toInt % 2 ^ 16 := by
  have hresidue := w.toInt_emod
  rw [toNat_lower]
  omega

end Word

/-! ## Instructions -/

namespace Instruction

variable {w : Word}

theorem decode_eq_ok_iff {i : Instruction} : decode w = .ok i ↔ i.encode = w := by
  constructor
  · intro h
    unfold decode at h
    split at h
    · rename_i op hop
      obtain rfl : ⟨op, Word.lower w⟩ = i := Except.ok.inj h
      show Word.ofHalves op.code (Word.lower w) = w
      rw [Opcode.ofCode?_eq_some_iff.mp hop, Word.ofHalves_upper_lower]
    · cases h
  · rintro rfl
    exact decode_encode i

/-- The fault of a word that is no instruction names its upper half. -/
theorem decode_eq_error_iff {f : Fault} :
    decode w = .error f ↔ Opcode.maxCode < Word.upper w ∧ f = .invalidOpcode (Word.upper w) := by
  rw [← Opcode.ofCode?_eq_none_iff]
  unfold decode
  cases Opcode.ofCode? (Word.upper w) <;> simp [eq_comm]

/-- **Encoding.** An instruction is what its word decodes to. The fields of a word are the upper and
the lower half of its residue modulo 2^32, and make up the word again, whatever its sign. If the
upper one is no greater than 35, the word is that of the instruction that it decodes to; otherwise
it is an invalid opcode, named by that field. -/
theorem decode_inverts_encode :
    (∀ i : Instruction, decode i.encode = .ok i) ∧
    ∀ w : Word,
      (Word.upper w).toNat = w.toInt % 2 ^ 32 / 2 ^ 16 ∧
      (Word.lower w).toNat = w.toInt % 2 ^ 16 ∧
      Word.ofHalves (Word.upper w) (Word.lower w) = w ∧
      (((Word.upper w).toNat ≤ 35 ∧ ∃ i, decode w = .ok i ∧ i.encode = w) ∨
        (35 < (Word.upper w).toNat ∧ decode w = .error (.invalidOpcode (Word.upper w)))) := by
  refine ⟨decode_encode, fun w => ⟨w.upper_eq, w.lower_eq, w.ofHalves_upper_lower, ?_⟩⟩
  by_cases hmax : Opcode.maxCode < Word.upper w
  · exact .inr ⟨UInt16.lt_iff_toNat_lt.mp hmax, decode_eq_error_iff.mpr ⟨hmax, rfl⟩⟩
  · have hle : Word.upper w ≤ Opcode.maxCode := UInt16.not_lt.mp hmax
    refine .inl ⟨UInt16.le_iff_toNat_le.mp hle, ?_⟩
    cases hd : decode w with
    | ok i => exact ⟨i, rfl, decode_eq_ok_iff.mp hd⟩
    | error f => exact absurd (decode_eq_error_iff.mp hd).1 hmax

end Instruction

end StackMachine
