import StackMachine.Proofs.Reading
import StackMachine.Proofs.Word

/-!
# Integer tokens

A numeral is one digit or more, and each digit counts for a power of ten by its place. A token
denotes an integer if it is a numeral, perhaps with one sign before it. Tokens are read digit by
digit, from the left, and this comes to the same.

* `Denotes`: what integer a token denotes;
* `natural?_eq_some_iff`, `integer?_eq_some_iff`: reading a token follows the grammar;
* `integer?_eq_none_iff`: it fails only for lack of an integer in range;
* `reads_integers`: so does a read of the token that is next on the input.
-/
namespace StackMachine

namespace Text

/-! ## The grammar -/

/-- The digits, from zero to nine. -/
def digitChars : List Char := "0123456789".toList

/-- The character is the digit of this value. -/
def Digit (c : Char) (d : Nat) : Prop := digitChars[d]? = some c

/-- The value of one digit or more. -/
inductive Numeral : List Char → Nat → Prop
  | single {c : Char} {d : Nat} (h : Digit c d) : Numeral [c] d
  | cons {c : Char} {digits : List Char} {d n : Nat} (h : Digit c d) (hrest : Numeral digits n) :
    Numeral (c :: digits) (d * 10 ^ digits.length + n)

/-- The integer that a token denotes. -/
inductive Denotes : List Char → Int → Prop
  | unsigned {digits : List Char} {n : Nat} (h : Numeral digits n) : Denotes digits n
  | plus {digits : List Char} {n : Nat} (h : Numeral digits n) : Denotes ('+' :: digits) n
  | minus {digits : List Char} {n : Nat} (h : Numeral digits n) : Denotes ('-' :: digits) (-n)

/-! ## Numerals -/

variable {c : Char} {digits : List Char} {d n : Nat}

/-- The digits have successive code points. -/
theorem digit_iff : Digit c d ↔ c.isDigit = true ∧ c.toNat - '0'.toNat = d := by
  have hdigits : ∀ i (hi : i < digitChars.length),
      digitChars[i].isDigit = true ∧ digitChars[i].toNat - '0'.toNat = i := by decide
  have hcodes : ∀ i < 10, digitChars[i]? = some (Char.ofNat ('0'.toNat + i)) := by decide
  unfold Digit
  constructor
  · intro h
    obtain ⟨hd, rfl⟩ := List.getElem?_eq_some_iff.mp h
    exact hdigits d hd
  · rintro ⟨hdigit, rfl⟩
    obtain ⟨hlow, hhigh⟩ := Char.isDigit_iff_toNat.mp hdigit
    have hnine : '9'.toNat = '0'.toNat + 9 := rfl
    rw [hcodes _ (by omega), Nat.add_sub_cancel' hlow, Char.ofNat_toNat]

theorem Numeral.isDigit (h : Numeral digits n) : ∀ c ∈ digits, c.isDigit = true := by
  induction h with
  | single h => exact List.forall_mem_singleton.mpr (digit_iff.mp h).1
  | cons h _ ih => exact List.forall_mem_cons.mpr ⟨(digit_iff.mp h).1, ih⟩

theorem Numeral.ne_nil (h : Numeral digits n) : digits ≠ [] := by
  cases h <;> exact List.cons_ne_nil _ _

theorem ofDigitChars_singleton (c : Char) : Nat.ofDigitChars 10 [c] 0 = c.toNat - '0'.toNat := by
  rw [Nat.ofDigitChars_cons, Nat.ofDigitChars_nil, Nat.mul_zero, Nat.zero_add]

/-- The first digit is multiplied by ten once for each digit behind it. -/
theorem ofDigitChars_cons (c : Char) (digits : List Char) :
    Nat.ofDigitChars 10 (c :: digits) 0 =
      (c.toNat - '0'.toNat) * 10 ^ digits.length + Nat.ofDigitChars 10 digits 0 := by
  rw [Nat.ofDigitChars_cons, Nat.ofDigitChars_eq_ofDigitChars_zero, Nat.mul_zero, Nat.zero_add,
    Nat.mul_comm]

theorem Numeral.value_eq (h : Numeral digits n) : Nat.ofDigitChars 10 digits 0 = n := by
  induction h with
  | single h => rw [ofDigitChars_singleton, (digit_iff.mp h).2]
  | cons h _ ih => rw [ofDigitChars_cons, (digit_iff.mp h).2, ih]

theorem numeral_of_isDigit (hne : digits ≠ []) (h : ∀ c ∈ digits, c.isDigit = true) :
    Numeral digits (Nat.ofDigitChars 10 digits 0) := by
  induction digits with
  | nil => exact absurd rfl hne
  | cons c digits ih =>
    obtain ⟨hc, hdigits⟩ := List.forall_mem_cons.mp h
    have hdigit := digit_iff.mpr ⟨hc, rfl⟩
    cases digits with
    | nil =>
      rw [ofDigitChars_singleton]
      exact .single hdigit
    | cons d digits =>
      rw [ofDigitChars_cons]
      exact .cons hdigit (ih (List.cons_ne_nil _ _) hdigits)

theorem natural?_eq_some_iff : natural? digits = some n ↔ Numeral digits n := by
  unfold natural?
  constructor
  · intro h
    split at h
    · rename_i hdigits
      obtain rfl := Option.some.inj h
      rw [Bool.and_eq_true, Bool.not_eq_true', List.isEmpty_eq_false_iff, List.all_eq_true]
        at hdigits
      exact numeral_of_isDigit hdigits.1 hdigits.2
    · cases h
  · intro h
    have hne : digits.isEmpty = false := List.isEmpty_eq_false_iff.mpr h.ne_nil
    have hall : digits.all Char.isDigit = true := List.all_eq_true.mpr h.isDigit
    rw [hne, hall, h.value_eq]
    rfl

/-! ## Tokens -/

/-- A token of digits only has no sign. -/
theorem integer?_of_isDigit (h : ∀ c ∈ digits, c.isDigit = true) :
    integer? digits = (natural? digits).bind fun n => Word.ofInt? n := by
  unfold integer?
  split
  · exact absurd (h '+' List.mem_cons_self) (by decide)
  · exact absurd (h '-' List.mem_cons_self) (by decide)
  · rfl

theorem integer?_plus (digits : List Char) :
    integer? ('+' :: digits) = (natural? digits).bind fun n => Word.ofInt? n := rfl

theorem integer?_minus (digits : List Char) :
    integer? ('-' :: digits) = (natural? digits).bind fun n => Word.ofInt? (-n) := rfl

theorem integer?_eq_some_iff {token : List Char} {w : Word} :
    integer? token = some w ↔ Denotes token w.toInt := by
  constructor
  · intro h
    unfold integer? at h
    split at h <;> obtain ⟨n, hn, hw⟩ := Option.bind_eq_some_iff.mp h <;>
      rw [Word.ofInt?_eq_some_iff.mp hw]
    · exact .plus (natural?_eq_some_iff.mp hn)
    · exact .minus (natural?_eq_some_iff.mp hn)
    · exact .unsigned (natural?_eq_some_iff.mp hn)
  · intro h
    generalize hv : w.toInt = v at h
    have hw := Word.ofInt?_eq_some_iff.mpr hv
    cases h with
    | unsigned h =>
      -- a numeral starts with a digit, so it is not taken for a sign and what follows it
      rw [integer?_of_isDigit h.isDigit, natural?_eq_some_iff.mpr h]
      exact hw
    | plus h =>
      rw [integer?_plus, natural?_eq_some_iff.mpr h]
      exact hw
    | minus h =>
      rw [integer?_minus, natural?_eq_some_iff.mpr h]
      exact hw

/-- Only an integer out of range makes a token that denotes one unreadable. -/
theorem integer?_eq_none_iff {token : List Char} :
    integer? token = none ↔ ¬ ∃ v, Denotes token v ∧ -2 ^ 31 ≤ v ∧ v ≤ 2 ^ 31 - 1 := by
  constructor
  · rintro h ⟨v, hv, hrange⟩
    obtain ⟨w, rfl⟩ := Word.exists_toInt_eq_iff.mpr hrange
    rw [integer?_eq_some_iff.mpr hv] at h
    cases h
  · intro h
    rw [Option.eq_none_iff_forall_ne_some]
    intro w hw
    exact h ⟨_, integer?_eq_some_iff.mp hw, Word.exists_toInt_eq_iff.mp ⟨w, rfl⟩⟩

end Text

open Text

namespace Input

theorem ended_eq_ok_iff {token : List Char} {after : Input} {w : Word} :
    ended (tokenResult token) after = .ok w after ↔ Denotes token w.toInt := by
  rw [← integer?_eq_some_iff]
  unfold tokenResult
  cases integer? token <;> simp [ended]

/-- **Integers on the input.** The runs of a text that are not blank are its tokens, in order. Where
a token is next on the input, a read takes exactly that token. It yields the integer that the token
denotes, if there is one and it lies in the range of words, and no other integer; otherwise it
fails, and its fault shows the token. -/
theorem reads_integers :
    (∀ text runs, Runs text runs → (ofBytes (utf8 text)).unread = runs.map .token) ∧
    ∀ (input : Input) (token : List Char) (behind : List Entry),
      input.unread = .token token :: behind →
      ∃ after : Input, after.unread = behind ∧
        (∀ v : Int, (∃ w : Word, w.toInt = v ∧ read input = .ok w after) ↔
          Denotes token v ∧ -2 ^ 31 ≤ v ∧ v ≤ 2 ^ 31 - 1) ∧
        ((¬ ∃ v : Int, Denotes token v ∧ -2 ^ 31 ≤ v ∧ v ≤ 2 ^ 31 - 1) →
          read input = .error (.invalidInput (String.ofList token)) after) := by
  refine ⟨fun text runs => unread_ofBytes, fun input token behind h => ?_⟩
  obtain ⟨after, hafter, hread⟩ := read_of_unread_cons h
  have hresult : read input = ended (tokenResult token) after := by
    rw [← input.more_nil, hread, more_nil]
    rfl
  refine ⟨after, hafter, fun v => ?_, fun hnone => ?_⟩
  · rw [hresult]
    constructor
    · rintro ⟨w, rfl, hw⟩
      exact ⟨ended_eq_ok_iff.mp hw, Word.exists_toInt_eq_iff.mp ⟨w, rfl⟩⟩
    · rintro ⟨hv, hrange⟩
      obtain ⟨w, rfl⟩ := Word.exists_toInt_eq_iff.mpr hrange
      exact ⟨w, rfl, ended_eq_ok_iff.mpr hv⟩
  · rw [hresult, tokenResult, integer?_eq_none_iff.mpr hnone]
    rfl

/-- The least word with a zero before it, and an integer that is too large by one. -/
def extremes : List Char := " -02147483648 +2147483648\n".toList

theorem reads_integers_extremes :
    (ofBytes (utf8 extremes)).unread =
        [.token "-02147483648".toList, .token "+2147483648".toList] ∧
      ∃ after last, read (ofBytes (utf8 extremes)) = .ok (-2147483648) after ∧
        read after = .error (.invalidInput "+2147483648") last ∧ last.unread = [] := by
  obtain ⟨hunread, hreads⟩ := reads_integers
  have hstart := hunread extremes _ (runs_iff.mpr rfl)
  have hleast : Denotes "-02147483648".toList (-2147483648 : Word).toInt :=
    integer?_eq_some_iff.mp (by decide)
  have hlarge := integer?_eq_none_iff.mp (show integer? "+2147483648".toList = none by decide)
  obtain ⟨after, hafter, hok, -⟩ := hreads _ _ _ hstart
  obtain ⟨last, hlast, -, hbad⟩ := hreads after _ _ hafter
  obtain ⟨w, hw, hread⟩ := (hok _).mpr ⟨hleast, by decide, by decide⟩
  obtain rfl := Int32.toInt_inj.mp hw
  exact ⟨hstart, after, last, hread, hbad hlarge, hlast⟩

end Input

end StackMachine
