import StackMachine.Proofs.Program

/-!
# Which files are programs

A file is a program if its bytes are those of whole words, and any such bytes are, so only the
number of bytes can make a file no program.

* `Word.toInt_modEq_bigEndian`: the bytes of a word spell it, most significant first;
* `exists_eq_toBytes_append`: any bytes are those of some words and less than a word more;
* `parse_toBytes_append`: what parsing makes of them;
* `parse_accepts_whole_words`: the files that parsing accepts, and why it refuses the others.
-/
namespace StackMachine

/-! ## Words -/

/-- The number that bytes spell, most significant first. -/
def bigEndian (bytes : List UInt8) : Nat := bytes.foldl (fun n b => 256 * n + b.toNat) 0

namespace Word

theorem toNat_eq_bigEndian (w : Word) : w.toUInt32.toNat = bigEndian w.toBytes := by
  have h := toNat_ofBytes (w.toUInt32 >>> 24).toUInt8 (w.toUInt32 >>> 16).toUInt8
    (w.toUInt32 >>> 8).toUInt8 w.toUInt32.toUInt8
  rw [ofBytes_toBytes] at h
  simp only [bigEndian, toBytes, List.foldl_cons, List.foldl_nil]
  omega

/-- A word is congruent to the number that its bytes spell. -/
theorem toInt_modEq_bigEndian (w : Word) : w.toInt ≡ bigEndian w.toBytes [ZMOD 2 ^ 32] := by
  rw [← toNat_eq_bigEndian]
  exact w.toInt_modEq_toNat

end Word

namespace Program

/-! ## Bytes -/

theorem length_toBytes (program : Program) : (toBytes program).length = 4 * program.length := by
  induction program with
  | nil => rfl
  | cons w program ih =>
    rw [toBytes_cons, List.length_append, ih, List.length_cons]
    simp only [Word.toBytes, List.length_cons, List.length_nil]
    omega

/-- Programs with the same bytes are the same. -/
theorem toBytes_inj {p q : Program} (h : toBytes p = toBytes q) : p = q := by
  have hp : takeWords #[] (toBytes p ++ []) = (#[] ++ p.toArray, []) :=
    takeWords_toBytes p (by decide) #[]
  have hq : takeWords #[] (toBytes q ++ []) = (#[] ++ q.toArray, []) :=
    takeWords_toBytes q (by decide) #[]
  rw [h, hq] at hp
  simpa using (congrArg Prod.fst hp).symm

/-- Bytes are those of some words, and less than a word more. -/
theorem exists_eq_toBytes_append (bytes : List UInt8) :
    ∃ program rest, bytes = toBytes program ++ rest ∧ rest.length < 4 := by
  match bytes with
  | a :: b :: c :: d :: bytes =>
    obtain ⟨program, rest, rfl, hlt⟩ := exists_eq_toBytes_append bytes
    refine ⟨.ofBytes a b c d :: program, rest, ?_, hlt⟩
    rw [toBytes_cons, Word.toBytes_ofBytes]
    rfl
  | [] | [_] | [_, _] | [_, _, _] => exact ⟨[], _, rfl, by simp⟩

/-! ## Parsing -/

/-- Less than a word at the end is an error whatever the capacity. -/
theorem parse_toBytes_append (program : Program) {rest : List UInt8} (hne : rest ≠ [])
    (hlt : rest.length < 4) (capacity : Nat) :
    parse (toBytes program ++ rest) capacity =
      .error (.truncatedWord (4 * program.length) rest.length) := by
  unfold parse
  rw [takeWords_toBytes program hlt, Array.empty_append]
  cases rest with
  | nil => exact absurd rfl hne
  | cons b rest => rfl

/-- **Parsing.** Bytes that are not a whole number of words are a truncated word, after the whole
ones, whatever the capacity. Otherwise they are too large a program exactly if they are more words
than the capacity, and if they are not, they are the one program with these bytes. So a program that
fits is parsed from its bytes, which are four to a word, the most significant first. -/
theorem parse_accepts_whole_words (bytes : List UInt8) (capacity : Nat) :
    ((bytes.length % 4 ≠ 0 ∧
        parse bytes capacity =
          .error (.truncatedWord (4 * (bytes.length / 4)) (bytes.length % 4))) ∨
      (bytes.length % 4 = 0 ∧ capacity < bytes.length / 4 ∧
        parse bytes capacity = .error (.programTooLarge (bytes.length / 4) capacity)) ∨
      (bytes.length % 4 = 0 ∧ bytes.length / 4 ≤ capacity ∧
        ∃ program, parse bytes capacity = .ok program ∧ ∀ q, toBytes q = bytes ↔ q = program)) ∧
    (∀ program, parse (toBytes program) capacity =
      if program.length ≤ capacity then .ok program
      else .error (.programTooLarge program.length capacity)) ∧
    ∀ w : Word, w.toBytes.length = 4 ∧ w.toInt ≡ bigEndian w.toBytes [ZMOD 2 ^ 32] := by
  refine ⟨?_, fun program => parse_toBytes program capacity,
    fun w => ⟨rfl, w.toInt_modEq_bigEndian⟩⟩
  obtain ⟨program, rest, rfl, hlt⟩ := exists_eq_toBytes_append bytes
  have hlen := length_toBytes program
  cases hrest : rest with
  | nil =>
    have hdiv : (toBytes program).length / 4 = program.length := by omega
    rw [List.append_nil, hdiv, parse_toBytes]
    by_cases hfits : program.length ≤ capacity
    · rw [if_pos hfits]
      exact .inr (.inr ⟨by omega, hfits, program, rfl, fun q => ⟨toBytes_inj, congrArg toBytes⟩⟩)
    · rw [if_neg hfits]
      exact .inr (.inl ⟨by omega, by omega, rfl⟩)
  | cons b rest' =>
    rw [← hrest, parse_toBytes_append program (by simp [hrest]) hlt, List.length_append, hlen]
    have hpos : 0 < rest.length := by simp [hrest]
    have hdiv : (4 * program.length + rest.length) / 4 = program.length := by omega
    have hmod : (4 * program.length + rest.length) % 4 = rest.length := by omega
    rw [hdiv, hmod]
    exact .inl ⟨by omega, rfl⟩

end Program

end StackMachine
