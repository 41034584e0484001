/-!
# Machine words

A word is a signed 32-bit integer (specification, §3). Programs pack two unsigned halves into one
word (§4.1), and program files spell a word as four bytes, most significant first (§6).

* `ofHalves`, `upper`, `lower`: a word as two 16-bit halves;
* `ofBytes`, `toBytes`: a word as four bytes;
* `ofInt?`: the word of an integer, if it has one;
* `decimal`, `hexadecimal`: a word as text.
-/

namespace StackMachine

/-- A signed 32-bit integer; arithmetic wraps. -/
abbrev Word := Int32

namespace Word

/-! ## Halves -/

/-- The upper half, unsigned. -/
def upper (w : Word) : UInt16 := (w.toUInt32 >>> 16).toUInt16

/-- The lower half, unsigned. -/
def lower (w : Word) : UInt16 := w.toUInt32.toUInt16

/-- The word with the given halves. -/
def ofHalves (high low : UInt16) : Word :=
  ((high.toUInt32 <<< 16) ||| low.toUInt32).toInt32

/-! ## Bytes -/

/-- The word spelled by four bytes, most significant first. -/
def ofBytes (a b c d : UInt8) : Word :=
  ((a.toUInt32 <<< 24) ||| (b.toUInt32 <<< 16) ||| (c.toUInt32 <<< 8) ||| d.toUInt32).toInt32

/-- The four bytes that spell a word, most significant first. -/
def toBytes (w : Word) : List UInt8 :=
  [(w.toUInt32 >>> 24).toUInt8, (w.toUInt32 >>> 16).toUInt8, (w.toUInt32 >>> 8).toUInt8,
    w.toUInt32.toUInt8]

/-! ## Numbers and truth values -/

/-- The word that holds an integer, if the integer lies in the range of words. -/
def ofInt? (v : Int) : Option Word :=
  if Int32.minValue.toInt ≤ v ∧ v ≤ Int32.maxValue.toInt then some (Int32.ofInt v) else none

/-- Truth is the word 1, falsehood the word 0. -/
def ofBool (b : Bool) : Word := if b then 1 else 0

/-- The word with an unsigned half as its value. -/
def ofHalf (h : UInt16) : Word := h.toUInt32.toInt32

/-! ## Text -/

/-- The decimal text: a minus sign for negative words, no leading zeros. -/
def decimal (w : Word) : String := w.toInt.repr

/-- The unsigned reading as `0x` and eight lower-case hexadecimal digits. -/
def hexadecimal (w : Word) : String :=
  let digits := Nat.toDigits 16 w.toUInt32.toNat
  "0x" ++ String.ofList (List.replicate (8 - digits.length) '0' ++ digits)

end Word

end StackMachine
