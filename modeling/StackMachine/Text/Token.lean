import StackMachine.Text.Blank

/-!
# Lines and tokens

A stream of bytes is a list of lines, each with its line end; a line of text is a list of tokens,
the longest runs without a blank character (specification, §6). Both are right folds, so they need
no stack space on long inputs.

* `splitLines`: the lines of a stream;
* `tokens`: the tokens of a line; `tokens_append_blank`: a blank character separates them.
-/

namespace StackMachine.Text

/-! ## Lines -/

/-- The line feed. -/
def newline : UInt8 := 10

/-- Puts a byte in front of a list of lines: a line feed is a line of its own, any other byte
belongs to the first line. -/
def consLine (b : UInt8) : List (List UInt8) → List (List UInt8)
  | [] => [[b]]
  | line :: rest => if b = newline then [b] :: line :: rest else (b :: line) :: rest

/-- The lines of a stream. Each ends with a line feed, except perhaps the last. -/
def splitLines (bytes : List UInt8) : List (List UInt8) := bytes.foldr consLine []

/-! ## Tokens -/

/-- Puts a character in front of a list of pieces: a separator starts a new piece, any other
character extends the first one. -/
def consPiece (separates : Char → Bool) (c : Char) : List (List Char) → List (List Char)
  | [] => [[c]]
  | piece :: rest => if separates c then [] :: piece :: rest else (c :: piece) :: rest

/-- The pieces of a text between separators: one more than there are separators. -/
def pieces (separates : Char → Bool) (text : List Char) : List (List Char) :=
  text.foldr (consPiece separates) [[]]

/-- The longest runs without a blank character. -/
def tokens (text : List Char) : List (List Char) := (pieces isBlank text).filter (!·.isEmpty)

theorem pieces_ne_nil (separates : Char → Bool) (text : List Char) :
    pieces separates text ≠ [] := by
  cases text with
  | nil => simp [pieces]
  | cons c rest =>
    simp only [pieces, List.foldr_cons, ne_eq]
    unfold consPiece
    split
    · simp
    · split <;> simp

theorem pieces_append_separator (separates : Char → Bool) (a b : List Char) (c : Char)
    (h : separates c = true) :
    pieces separates (a ++ c :: b) = pieces separates a ++ pieces separates b := by
  induction a with
  | nil =>
    obtain ⟨p, ps, hp⟩ := List.exists_cons_of_ne_nil (pieces_ne_nil separates b)
    simp only [pieces] at hp
    simp [pieces, consPiece, hp, h]
  | cons x a ih =>
    obtain ⟨p, ps, hp⟩ := List.exists_cons_of_ne_nil (pieces_ne_nil separates a)
    simp only [pieces] at ih hp
    simp only [pieces, List.cons_append, List.foldr_cons, ih, hp, consPiece]
    split <;> simp

/-- A blank character separates the tokens before it from those after it. -/
theorem tokens_append_blank (a b : List Char) (c : Char) (h : isBlank c = true) :
    tokens (a ++ c :: b) = tokens a ++ tokens b := by
  simp [tokens, pieces_append_separator isBlank a b c h]

end StackMachine.Text
