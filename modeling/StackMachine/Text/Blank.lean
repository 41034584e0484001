/-!
# Blank characters

The characters with the Unicode property White_Space, as ranges of code points. Line ends are
among them; zero-width characters and the information separators are not.
-/

namespace StackMachine.Text

/-- The first and last code point of each range of blank characters. -/
def blankRanges : List (Nat × Nat) :=
  [(0x0009, 0x000D), (0x0020, 0x0020), (0x0085, 0x0085), (0x00A0, 0x00A0), (0x1680, 0x1680),
    (0x2000, 0x200A), (0x2028, 0x2029), (0x202F, 0x202F), (0x205F, 0x205F), (0x3000, 0x3000)]

/-- Whether a character is blank. -/
def isBlank (c : Char) : Bool :=
  blankRanges.any fun (first, last) => first ≤ c.toNat && c.toNat ≤ last

/-- A line feed is blank, so a token never crosses a line end. -/
theorem isBlank_newline : isBlank '\n' = true := by decide

end StackMachine.Text
