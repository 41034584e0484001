/-!
# Tables of text

A table is drawn as strips side by side. A column is one strip: its title, a rule, its cells, and a
rule at the bottom, all of the column's width. Between two columns stands a strip one character
wide, with the junctions of the rules, and at each end a blank one. All strips have the same
height, so every line of a table has the same length.

A cell is a block, so it may have several lines; a row is as high as its highest cell. Tables of
this style show the state of a machine (specification, §9).
-/

namespace StackMachine

/-- A text as lines, top first. -/
abbrev Block := List (List Char)

namespace Block

/-- The length of the longest line. -/
def width (b : Block) : Nat := b.foldr (fun line w => max line.length w) 0

/-- Blocks of the same height side by side, the first one leftmost. -/
def beside : List Block → Block
  | [] => []
  | [b] => b
  | b :: rest => List.zipWith (· ++ ·) b (beside rest)

/-- The lines as one text, each with a line end. -/
def text (b : Block) : String := String.ofList (b.flatMap (· ++ ['\n']))

end Block

/-- The side to which text is moved in a column that is wider. -/
inductive Align where
  | left | right
  deriving DecidableEq, Repr

/-- Fills a line with spaces up to a width. -/
def Align.pad (side : Align) (width : Nat) (line : List Char) : List Char :=
  let fill := List.replicate (width - line.length) ' '
  match side with
  | .left => line ++ fill
  | .right => fill ++ line

/-- A column of a table: one cell for each row. -/
structure Column where
  align : Align
  title : List Char
  cells : List Block
  deriving DecidableEq, Repr

namespace Column

/-- The width of the widest cell, or of the title if that is wider. -/
def width (c : Column) : Nat :=
  c.cells.foldr (fun cell w => max cell.width w) c.title.length

/-- A line of a column of the given width: the text at its side, with a space before and after. -/
def line (c : Column) (width : Nat) (text : List Char) : List Char :=
  ' ' :: c.align.pad width text ++ [' ']

/-- A cell drawn at the height of its row, blank below. -/
def drawCell (c : Column) (width : Nat) (cell : Block) (height : Nat) : Block :=
  cell.map (c.line width) ++ List.replicate (height - cell.length) (c.line width [])

/-- The strip of a column, given the height of each row. -/
def strip (c : Column) (heights : List Nat) : Block :=
  let width := c.width
  let rule := List.replicate (width + 2) '─'
  c.line width c.title :: rule ::
    (List.zipWith (c.drawCell width) c.cells heights).flatten ++ [rule]

end Column

/-- Columns, leftmost first, each with as many cells as there are rows. -/
abbrev Table := List Column

namespace Table

/-- The height of each row. -/
def heights : Table → List Nat
  | [] => []
  | [c] => c.cells.map List.length
  | c :: rest => List.zipWith max (c.cells.map List.length) (heights rest)

/-- The strip between two columns: a line, crossed by the rule of the titles and ended by the one
at the bottom. `rows` is the height of all rows together. -/
def divider (rows : Nat) : Block :=
  ['│'] :: ['┼'] :: List.replicate rows ['│'] ++ [['┴']]

/-- The strip at either end of a table. -/
def border (rows : Nat) : Block := List.replicate (rows + 3) [' ']

/-- The table as lines of text. -/
def draw (t : Table) : Block :=
  let rows := t.heights.foldr (· + ·) 0
  let strips := (t.map (·.strip t.heights)).intersperse (divider rows)
  .beside (border rows :: strips ++ [border rows])

end Table

end StackMachine
