import StackMachine.Word

/-!
# Integer tokens

An integer token is an optional sign and one or more of the digits 0 to 9, with any number of
leading zeros. It is read only if its value is a word's; any other token is invalid input
(specification, §4.3).
-/

namespace StackMachine.Text

/-- The value of a non-empty list of digits. -/
def natural? (digits : List Char) : Option Nat :=
  if !digits.isEmpty && digits.all Char.isDigit then some (Nat.ofDigitChars 10 digits 0) else none

/-- The word that a token denotes, if it denotes one. -/
def integer? : List Char → Option Word
  | '+' :: digits => (natural? digits).bind fun n => Word.ofInt? n
  | '-' :: digits => (natural? digits).bind fun n => Word.ofInt? (-n)
  | digits => (natural? digits).bind fun n => Word.ofInt? n

end StackMachine.Text
