import StackMachine.Proofs.Numerals
import StackMachine.Proofs.Printing

/-!
# Reading what was printed

The decimal text of a word is a token, and the word is what the token is read as. The line feeds
between printed words keep the tokens apart.

* `Word.integer?_decimal`: the text of a word denotes it;
* `Output.tokens_text`: the tokens of a printed text are the texts of its words;
* `Output.printed_words_read_back`: so the words come back, in order.
-/
namespace StackMachine

/-! ## Words -/

namespace Text

/-- The digits of a number have its value. -/
theorem natural?_toDigits (n : Nat) : natural? (Nat.toDigits 10 n) = some n := by
  have hall : (Nat.toDigits 10 n).all Char.isDigit = true :=
    List.all_eq_true.mpr fun _ => isDigit_of_mem_toDigits
  have hne : (Nat.toDigits 10 n).isEmpty = false :=
    List.isEmpty_eq_false_iff.mpr Nat.toDigits_ne_nil
  unfold natural?
  rw [hall, hne, Nat.ofDigitChars_toDigits (by decide) (by decide)]
  rfl

/-- A token without a sign is a number. -/
theorem integer?_toDigits (n : Nat) : integer? (Nat.toDigits 10 n) = Word.ofInt? n := by
  rw [integer?_of_isDigit fun _ => isDigit_of_mem_toDigits, natural?_toDigits]
  rfl

/-- Neither a digit nor a minus sign is blank. -/
theorem isBlank_of_mem_decimal {w : Word} {c : Char} (h : c ∈ w.decimal.toList) :
    isBlank c = false := by
  rcases Word.mem_decimal h with rfl | hdigit
  · decide
  · obtain ⟨hlow, hhigh⟩ := Char.isDigit_iff_toNat.mp hdigit
    have hlow : 48 ≤ c.toNat := hlow
    have hhigh : c.toNat ≤ 57 := hhigh
    simp only [isBlank, blankRanges, List.any_cons, List.any_nil, Bool.or_false,
      Bool.or_eq_false_iff, Bool.and_eq_false_iff, decide_eq_false_iff_not]
    omega

end Text

/-- The decimal text of a word denotes it. -/
theorem Word.integer?_decimal (w : Word) : Text.integer? w.decimal.toList = some w := by
  have hw : ofInt? w.toInt = some w := ofInt?_eq_some_iff.mpr rfl
  rw [← hw]
  unfold decimal
  cases w.toInt with
  | ofNat n =>
    rw [Int.repr, Nat.toList_repr]
    exact Text.integer?_toDigits n
  | negSucc n =>
    have hminus : "-".toList = ['-'] := rfl
    rw [Int.repr, String.toList_append, Nat.toList_repr, hminus, List.singleton_append,
      Text.integer?_minus, Text.natural?_toDigits, Option.bind_some, Int.negSucc_eq]
    rfl

/-! ## Outputs -/

namespace Output

/-- A line feed is blank and a decimal text is not, so each printed line is one token. -/
theorem tokens_text (words : List Word) :
    Text.tokens (text words).toList = words.map (·.decimal.toList) := by
  induction words with
  | nil => rfl
  | cons w words ih =>
    have hline : (text (w :: words)).toList = w.decimal.toList ++ '\n' :: (text words).toList := by
      rw [text_cons, line, String.toList_append, String.toList_append, List.append_assoc]
      rfl
    rw [hline, Text.tokens_append_blank _ _ _ Text.isBlank_newline, ih,
      Text.tokens_of_run w.decimal_ne_nil fun _ => Text.isBlank_of_mem_decimal]
    rfl

/-- Printed bytes hold the words. -/
theorem holds_text (words : List Word) (room : Option Nat) :
    Input.Holds (bytes ⟨text words, room⟩) (words.map .ok) := by
  have hresult (w : Word) : Input.tokenResult w.decimal.toList = .ok w := by
    unfold Input.tokenResult
    rw [w.integer?_decimal]
  have h := Input.holds_utf8 (text words).toList
  rw [tokens_text, List.map_map] at h
  unfold bytes
  simpa only [Function.comp_def, hresult] using h

theorem forM_print_empty (words : List Word) :
    words.forM print (.empty none) = .ok () ⟨text words, none⟩ := by
  rw [forM_print]
  simp [write, empty]

/-- **Reading back.** Words that are printed in order, at a port without a limit, leave bytes that
are an input whose successive reads deliver exactly these words, in order, and then find the input
exhausted. So other words leave other bytes. -/
theorem printed_words_read_back (words : List Word) :
    ∃ port, words.forM print (.empty none) = .ok () port ∧
      (∀ n, Input.nthRead (.ofBytes port.bytes) n =
        (words.map .ok)[n]?.getD (.error .inputExhausted)) ∧
      ∀ others port', others.forM print (.empty none) = .ok () port' →
        port'.bytes = port.bytes → others = words := by
  refine ⟨_, forM_print_empty words, fun n => ?_, ?_⟩
  · rw [Input.nthRead_eq, Input.remaining_ofBytes (holds_text words none)]
  · intro others port' hprint hbytes
    rw [forM_print_empty] at hprint
    cases hprint
    have hothers := Input.remaining_ofBytes (holds_text others none)
    have hwords := Input.remaining_ofBytes (holds_text words none)
    rw [hbytes] at hothers
    exact (List.map_inj_right fun _ _ h => Except.ok.inj h).mp (hothers.symm.trans hwords)

/-- The least word and a word without a sign. -/
def least : List Word := [-2147483648, 7]

theorem printed_words_read_back_least :
    ∃ port, least.forM print (.empty none) = .ok () port ∧ port.written = "-2147483648\n7\n" ∧
      Input.nthRead (.ofBytes port.bytes) 0 = .ok (-2147483648) ∧
      Input.nthRead (.ofBytes port.bytes) 1 = .ok 7 ∧
      Input.nthRead (.ofBytes port.bytes) 2 = .error .inputExhausted := by
  obtain ⟨port, hprint, hreads, -⟩ := printed_words_read_back least
  have hport := forM_print_empty least
  rw [hprint] at hport
  cases hport
  exact ⟨_, hprint, by decide, hreads 0, hreads 1, hreads 2⟩

end Output

end StackMachine
