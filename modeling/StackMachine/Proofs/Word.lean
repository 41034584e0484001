import Mathlib.Data.Int.ModEq
import StackMachine.Instruction

/-!
# Laws of words

Halves and bytes are places of the unsigned reading of a word, so a word that is put together from
them can be taken apart again.

* `toNat_ofHalves`, `toNat_ofBytes`: the unsigned reading of a word from its parts;
* `upper_ofHalves`, `lower_ofHalves`: its halves;
* `ofBytes_toBytes`, `toBytes_ofBytes`: its bytes;
* `eq_of_modEq`: words that are congruent modulo 2^32 are the same;
* `ofInt?_eq_some_iff`, `exists_toInt_eq_iff`: which integers are those of words;
* `decode_encode`: an instruction is the instruction of its word.
-/
namespace StackMachine

namespace Word

/-- Words with the same unsigned reading are the same. -/
theorem eq_of_toNat {w v : Word} (h : w.toUInt32.toNat = v.toUInt32.toNat) : w = v := by
  rw [← Int32.toInt32_toUInt32 w, UInt32.toNat_inj.mp h, Int32.toInt32_toUInt32]

/-! ## Congruence -/

/-- What is left of a number in a word is congruent to it. -/
theorem bmod_modEq (v : Int) : v.bmod (2 ^ 32) ≡ v [ZMOD 2 ^ 32] := by
  have h := Int.bmod_emod (x := v) (m := 2 ^ 32)
  exact_mod_cast h

theorem toInt_modEq_toNat (w : Word) : w.toInt ≡ (w.toUInt32.toNat : Int) [ZMOD 2 ^ 32] := by
  rw [← Int32.toInt_toBitVec, BitVec.toInt_eq_toNat_bmod, Int32.toNat_toBitVec]
  exact bmod_modEq _

/-- The unsigned reading of a word is its residue. -/
theorem toInt_emod (w : Word) : w.toInt % 2 ^ 32 = w.toUInt32.toNat := by
  have hlt := w.toUInt32.toNat_lt
  have h := w.toInt_modEq_toNat
  unfold Int.ModEq at h
  omega

/-- Words that are congruent are the same. -/
theorem eq_of_modEq {w v : Word} (h : w.toInt ≡ v.toInt [ZMOD 2 ^ 32]) : w = v := by
  have hw := w.le_toInt
  have hw' := w.toInt_lt
  have hv := v.le_toInt
  have hv' := v.toInt_lt
  unfold Int.ModEq at h
  apply Int32.toInt_inj.mp
  omega

/-! ## Range -/

theorem ofInt?_eq_some_iff {v : Int} {w : Word} : ofInt? v = some w ↔ w.toInt = v := by
  unfold ofInt?
  split
  · rename_i hrange
    obtain ⟨hmin, hmax⟩ := hrange
    have hv : (Int32.ofInt v).toInt = v := Int32.toInt_ofInt_of_le hmin (Int.lt_add_one_of_le hmax)
    rw [Option.some.injEq, ← Int32.toInt_inj, hv]
    exact eq_comm
  · rename_i hrange
    constructor
    · nofun
    · rintro rfl
      exact absurd ⟨w.minValue_le_toInt, w.toInt_le⟩ hrange

theorem exists_toInt_eq_iff {v : Int} :
    (∃ w : Word, w.toInt = v) ↔ -2 ^ 31 ≤ v ∧ v ≤ 2 ^ 31 - 1 := by
  constructor
  · rintro ⟨w, rfl⟩
    exact ⟨w.le_toInt, Int.le_sub_one_of_lt w.toInt_lt⟩
  · rintro ⟨hmin, hmax⟩
    exact ⟨Int32.ofInt v, Int32.toInt_ofInt_of_le hmin (Int.lt_of_le_sub_one hmax)⟩

/-! ## Places -/

theorem toNat_shiftLeft_of_lt {x k : UInt32} (hk : k.toNat < 32)
    (hx : x.toNat * 2 ^ k.toNat < 2 ^ 32) : (x <<< k).toNat = x.toNat * 2 ^ k.toNat := by
  rw [UInt32.toNat_shiftLeft, Nat.mod_eq_of_lt hk, Nat.shiftLeft_eq, Nat.mod_eq_of_lt hx]

/-- Bits set below others count on their own. -/
theorem toNat_or_of_lt {x y : UInt32} {k m : Nat} (hx : x.toNat = m * 2 ^ k)
    (hy : y.toNat < 2 ^ k) : (x ||| y).toNat = x.toNat + y.toNat := by
  rw [UInt32.toNat_or, hx, ← Nat.shiftLeft_eq, ← Nat.shiftLeft_add_eq_or_of_lt hy]

/-! ## Halves -/

theorem toNat_upper (w : Word) : (upper w).toNat = w.toUInt32.toNat / 2 ^ 16 := by
  have hw := w.toUInt32.toNat_lt
  unfold upper
  rw [UInt32.toNat_toUInt16, UInt32.toNat_shiftRight, Nat.shiftRight_eq_div_pow]
  exact Nat.mod_eq_of_lt (Nat.div_lt_of_lt_mul hw)

theorem toNat_lower (w : Word) : (lower w).toNat = w.toUInt32.toNat % 2 ^ 16 := by
  unfold lower
  rw [UInt32.toNat_toUInt16]

/-- The upper half counts for 2^16 times as much as the lower. -/
theorem toNat_ofHalves (high low : UInt16) :
    (ofHalves high low).toUInt32.toNat = high.toNat * 2 ^ 16 + low.toNat := by
  have hhigh := high.toNat_lt
  have hshift : (high.toUInt32 <<< 16).toNat = high.toNat * 2 ^ 16 := by
    rw [toNat_shiftLeft_of_lt (by decide), UInt16.toNat_toUInt32]
    · rfl
    · rw [UInt16.toNat_toUInt32]
      exact Nat.mul_lt_mul_of_pos_right hhigh (by decide)
  unfold ofHalves
  rw [UInt32.toUInt32_toInt32, toNat_or_of_lt hshift, hshift, UInt16.toNat_toUInt32]
  rw [UInt16.toNat_toUInt32]
  exact low.toNat_lt

@[simp] theorem upper_ofHalves (high low : UInt16) : upper (ofHalves high low) = high := by
  have hlow := low.toNat_lt
  rw [← UInt16.toNat_inj, toNat_upper, toNat_ofHalves]
  omega

@[simp] theorem lower_ofHalves (high low : UInt16) : lower (ofHalves high low) = low := by
  have hlow := low.toNat_lt
  rw [← UInt16.toNat_inj, toNat_lower, toNat_ofHalves]
  omega

/-! ## Bytes -/

/-- Each byte counts for 2^8 times as much as the next. -/
theorem toNat_ofBytes (a b c d : UInt8) :
    (ofBytes a b c d).toUInt32.toNat =
      a.toNat * 2 ^ 24 + b.toNat * 2 ^ 16 + c.toNat * 2 ^ 8 + d.toNat := by
  have byte_shift (x : UInt8) {k : UInt32} (hk : k.toNat ≤ 24) :
      (x.toUInt32 <<< k).toNat = x.toNat * 2 ^ k.toNat := by
    have hpow := Nat.pow_le_pow_right (show 0 < 2 by decide) hk
    have hx := Nat.mul_lt_mul_of_lt_of_le x.toNat_lt hpow (by decide)
    rw [toNat_shiftLeft_of_lt (by omega) (by rw [UInt8.toNat_toUInt32]; exact hx),
      UInt8.toNat_toUInt32]
  have ha : (a.toUInt32 <<< 24).toNat = a.toNat * 2 ^ 24 := byte_shift a (by decide)
  have hb : (b.toUInt32 <<< 16).toNat = b.toNat * 2 ^ 16 := byte_shift b (by decide)
  have hc : (c.toUInt32 <<< 8).toNat = c.toNat * 2 ^ 8 := byte_shift c (by decide)
  have hd : d.toUInt32.toNat = d.toNat := UInt8.toNat_toUInt32 d
  have hblt := b.toNat_lt
  have hclt := c.toNat_lt
  have hdlt := d.toNat_lt
  have hab := toNat_or_of_lt (y := b.toUInt32 <<< 16) ha (by omega)
  have habc := toNat_or_of_lt (x := a.toUInt32 <<< 24 ||| b.toUInt32 <<< 16)
    (y := c.toUInt32 <<< 8) (k := 16) (m := a.toNat * 2 ^ 8 + b.toNat) (by omega) (by omega)
  have habcd := toNat_or_of_lt (x := a.toUInt32 <<< 24 ||| b.toUInt32 <<< 16 ||| c.toUInt32 <<< 8)
    (y := d.toUInt32) (k := 8) (m := (a.toNat * 2 ^ 8 + b.toNat) * 2 ^ 8 + c.toNat)
    (by omega) (by omega)
  unfold ofBytes
  rw [UInt32.toUInt32_toInt32]
  omega

/-- The word spelled by the bytes of a word is that word. -/
theorem ofBytes_toBytes (w : Word) :
    ofBytes (w.toUInt32 >>> 24).toUInt8 (w.toUInt32 >>> 16).toUInt8 (w.toUInt32 >>> 8).toUInt8
      w.toUInt32.toUInt8 = w := by
  have hw := w.toUInt32.toNat_lt
  apply eq_of_toNat
  rw [toNat_ofBytes]
  simp only [UInt32.toNat_toUInt8, UInt32.toNat_shiftRight, UInt32.reduceToNat, Nat.reduceMod,
    Nat.shiftRight_eq_div_pow]
  omega

/-- The bytes of the word spelled by four bytes are these four. -/
theorem toBytes_ofBytes (a b c d : UInt8) : (ofBytes a b c d).toBytes = [a, b, c, d] := by
  have ha := a.toNat_lt
  have hb := b.toNat_lt
  have hc := c.toNat_lt
  have hd := d.toNat_lt
  unfold toBytes
  simp only [List.cons.injEq, and_true, ← UInt8.toNat_inj, UInt32.toNat_toUInt8,
    UInt32.toNat_shiftRight, toNat_ofBytes, UInt32.reduceToNat, Nat.reduceMod,
    Nat.shiftRight_eq_div_pow]
  omega

end Word

/-- Decoding the word of an instruction gives the instruction. -/
@[simp] theorem Instruction.decode_encode (i : Instruction) :
    Instruction.decode i.encode = .ok i := by
  unfold decode encode
  rw [Word.upper_ofHalves, Word.lower_ofHalves, Opcode.ofCode?_code]

end StackMachine
