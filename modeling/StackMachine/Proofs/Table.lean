import Mathlib.Algebra.GroupWithZero.Nat
import Mathlib.Data.List.Forall2
import StackMachine.Table

/-!
# What a drawn table tells

All lines of a drawn table have the same length, and the rule below its titles says where its
columns end. So the strips can be taken off one by one, from the left, whatever stands at the right
of the table. A strip then tells the lines in its cells, unless they have spaces where the column
has filled them.

* `Block.Rect`: a block of so many lines, all of one length; `Rect.text_inj`: its text tells it;
* `Block.Ruled`: a strip with both its rules; `zipWith_ruled_inj`: it can be told from what is to
  the right of it;
* `Align.pad_inj`, `texts_of_strip`: a strip of one-line cells tells their texts;
* `rect_draw`: a table is a block of this kind; `strips_of_draw`: it tells its strips, and
  `strips_of_cell`: so it does inside a cell of another table.
-/
namespace StackMachine

/-! ## Fill -/

section Fill

variable {α : Type} {a : α} {x y : List α}

theorem replicate_append_inj {m n : Nat} (hx : ∀ b ∈ x.head?, b ≠ a) (hy : ∀ b ∈ y.head?, b ≠ a)
    (h : List.replicate m a ++ x = List.replicate n a ++ y) : m = n ∧ x = y := by
  induction m generalizing n with
  | zero =>
    cases n with
    | zero => exact ⟨rfl, h⟩
    | succ n =>
      obtain rfl : x = a :: (List.replicate n a ++ y) := h
      exact absurd rfl (hx a rfl)
  | succ m ih =>
    cases n with
    | zero =>
      obtain rfl : y = a :: (List.replicate m a ++ x) := h.symm
      exact absurd rfl (hy a rfl)
    | succ n =>
      obtain ⟨hmn, hxy⟩ := ih (List.cons.inj h).2
      exact ⟨congrArg (· + 1) hmn, hxy⟩

theorem append_replicate_inj {m n : Nat} (hx : ∀ b ∈ x.getLast?, b ≠ a)
    (hy : ∀ b ∈ y.getLast?, b ≠ a) (h : x ++ List.replicate m a = y ++ List.replicate n a) :
    x = y ∧ m = n := by
  have hrev := congrArg List.reverse h
  rw [List.reverse_append, List.reverse_append, List.reverse_replicate,
    List.reverse_replicate] at hrev
  rw [← List.head?_reverse] at hx hy
  obtain ⟨hmn, hxy⟩ := replicate_append_inj hx hy hrev
  exact ⟨List.reverse_inj.mp hxy, hmn⟩

/-- A list can be cut at the first place where an element stands. -/
theorem append_cons_inj {s t : List α} (hx : a ∉ x) (hy : a ∉ y)
    (h : x ++ a :: s = y ++ a :: t) : x = y ∧ s = t := by
  induction x generalizing y with
  | nil =>
    cases y with
    | nil => exact ⟨rfl, (List.cons.inj h).2⟩
    | cons b y => exact absurd ((List.cons.inj h).1 ▸ List.mem_cons_self) hy
  | cons b x ih =>
    cases y with
    | nil => exact absurd ((List.cons.inj h).1 ▸ List.mem_cons_self) hx
    | cons c y =>
      obtain ⟨rfl, hrest⟩ := List.cons.inj h
      obtain ⟨rfl, hst⟩ :=
        ih (List.not_mem_of_not_mem_cons hx) (List.not_mem_of_not_mem_cons hy) hrest
      exact ⟨rfl, hst⟩

theorem le_foldr_max (f : α → Nat) (base : Nat) (l : List α) :
    base ≤ l.foldr (fun x w => max (f x) w) base ∧
      ∀ x ∈ l, f x ≤ l.foldr (fun x w => max (f x) w) base := by
  induction l with
  | nil => exact ⟨Nat.le_refl _, nofun⟩
  | cons first rest ih =>
    rw [List.foldr_cons, List.forall_mem_cons]
    exact ⟨Nat.le_trans ih.1 (Nat.le_max_right _ _), Nat.le_max_left _ _,
      fun x hx => Nat.le_trans (ih.2 x hx) (Nat.le_max_right _ _)⟩

end Fill

/-- The text does not have a space at the side where a column fills it. -/
def Align.Clear : Align → List Char → Prop
  | .left, text => ∀ c ∈ text.getLast?, c ≠ ' '
  | .right, text => ∀ c ∈ text.head?, c ≠ ' '

theorem Align.pad_inj {side : Align} {width : Nat} {x y : List Char} (hx : side.Clear x)
    (hy : side.Clear y) (h : side.pad width x = side.pad width y) : x = y := by
  cases side with
  | left => exact (append_replicate_inj hx hy h).1
  | right => exact (replicate_append_inj hx hy h).2

theorem Align.length_pad (side : Align) {width : Nat} {text : List Char}
    (h : text.length ≤ width) : (side.pad width text).length = width := by
  cases side <;> simp only [pad, List.length_append, List.length_replicate] <;> omega

/-! ## Blocks -/

namespace Block

/-- So many lines, all of one length. -/
structure Rect (height width : Nat) (b : Block) : Prop where
  length_eq : b.length = height
  length_line : ∀ line ∈ b, line.length = width

variable {height width height' width' : Nat} {b b' r r' : Block}

theorem Rect.replicate (height : Nat) (line : List Char) :
    Rect height line.length (List.replicate height line) where
  length_eq := List.length_replicate
  length_line _ h := congrArg List.length (List.eq_of_mem_replicate h)

theorem Rect.zipWith (hb : b.Rect height width) (hr : r.Rect height width') :
    Rect height (width + width') (List.zipWith (· ++ ·) b r) where
  length_eq := by rw [List.length_zipWith, hb.length_eq, hr.length_eq, Nat.min_self]
  length_line line hline := by
    obtain ⟨i, hi, rfl⟩ := List.mem_iff_getElem.mp hline
    rw [List.getElem_zipWith, List.length_append, hb.length_line _ (List.getElem_mem _),
      hr.length_line _ (List.getElem_mem _)]

theorem Rect.exists_line (hb : b.Rect height width) {i : Nat} (hi : i < height) :
    ∃ line, b[i]? = some line :=
  ⟨_, List.getElem?_eq_getElem (by rwa [hb.length_eq])⟩

theorem Rect.map_take (hb : b.Rect height width) (hr : r.length = height) :
    (List.zipWith (· ++ ·) b r).map (List.take width) = b := by
  have hlength := hb.length_eq
  refine List.ext_getElem (by rw [List.length_map, List.length_zipWith]; omega) fun i hi hi' => ?_
  rw [List.getElem_map, List.getElem_zipWith,
    List.take_left' (hb.length_line _ (List.getElem_mem _))]

theorem Rect.map_drop (hb : b.Rect height width) (hr : r.length = height) :
    (List.zipWith (· ++ ·) b r).map (List.drop width) = r := by
  have hlength := hb.length_eq
  refine List.ext_getElem (by rw [List.length_map, List.length_zipWith]; omega) fun i hi hi' => ?_
  rw [List.getElem_map, List.getElem_zipWith,
    List.drop_left' (hb.length_line _ (List.getElem_mem _))]

/-- Two blocks side by side can be told apart if the width of the left one is known. -/
theorem zipWith_inj (hb : b.Rect height width) (hb' : b'.Rect height width)
    (hr : r.length = height) (hr' : r'.length = height)
    (h : List.zipWith (· ++ ·) b r = List.zipWith (· ++ ·) b' r') : b = b' ∧ r = r' :=
  ⟨by rw [← hb.map_take hr, h, hb'.map_take hr'], by rw [← hb.map_drop hr, h, hb'.map_drop hr']⟩

/-! ## Texts -/

theorem toList_text (b : Block) : b.text.toList = b.flatMap (· ++ ['\n']) := by
  unfold text
  rw [String.toList_ofList]

/-- Lines of one length can be told apart if that is known. -/
theorem flatMap_inj (hb : ∀ line ∈ b, line.length = width) (hb' : ∀ line ∈ b', line.length = width)
    (h : b.flatMap (· ++ ['\n']) = b'.flatMap (· ++ ['\n'])) : b = b' := by
  induction b generalizing b' with
  | nil =>
    cases b' with
    | nil => rfl
    | cons line' rest' => simp at h
  | cons line rest ih =>
    cases b' with
    | nil => simp at h
    | cons line' rest' =>
      rw [List.forall_mem_cons] at hb hb'
      rw [List.flatMap_cons, List.flatMap_cons] at h
      obtain ⟨hline, hrest⟩ := List.append_inj h (by
        rw [List.length_append, List.length_append, hb.1, hb'.1])
      rw [List.append_cancel_right hline, ih hb.2 hb'.2 hrest]

/-- The text of a block with lines of one length tells the block, if it tells where the first line
ends. -/
theorem Rect.text_inj (hb : b.Rect height width) (hb' : b'.Rect height' width')
    (hfirst : ∀ line ∈ b.head?, '\n' ∉ line) (hfirst' : ∀ line ∈ b'.head?, '\n' ∉ line)
    (h : b.text = b'.text) : b = b' := by
  have hlist : b.flatMap (· ++ ['\n']) = b'.flatMap (· ++ ['\n']) := by
    rw [← toList_text, ← toList_text, h]
  cases b with
  | nil =>
    cases b' with
    | nil => rfl
    | cons line' rest' => simp at hlist
  | cons line rest =>
    cases b' with
    | nil => simp at hlist
    | cons line' rest' =>
      have hcut := hlist
      rw [List.flatMap_cons, List.flatMap_cons, List.append_assoc, List.append_assoc,
        List.singleton_append, List.singleton_append] at hcut
      have hline := (append_cons_inj (hfirst line rfl) (hfirst' line' rfl) hcut).1
      have hwidth := hb.length_line line List.mem_cons_self
      rw [hline, hb'.length_line line' List.mem_cons_self] at hwidth
      exact flatMap_inj hb.length_line (hwidth ▸ hb'.length_line) hlist

/-! ## Strips -/

/-- A strip of a column: `rows` lines between its rules, and the titles above. -/
structure Ruled (rows width : Nat) (b : Block) : Prop extends Rect (rows + 3) width b where
  width_pos : 0 < width
  top_rule : b[1]? = some (List.replicate width '─')
  bottom_rule : b[rows + 2]? = some (List.replicate width '─')

/-- What may stand to the right of a strip: it does not go on with the rule. -/
structure Stops (rows : Nat) (r : Block) : Prop where
  length_eq : r.length = rows + 3
  top : ∃ line, r[1]? = some line ∧ ∀ c ∈ line.head?, c ≠ '─'

variable {rows : Nat}

theorem Ruled.length_zipWith (hb : b.Ruled rows width) (hr : r.Stops rows) :
    (List.zipWith (· ++ ·) b r).length = rows + 3 := by
  rw [List.length_zipWith, hb.length_eq, hr.length_eq, Nat.min_self]

/-- A strip can be told from what is to the right of it. -/
theorem zipWith_ruled_inj (hb : b.Ruled rows width) (hb' : b'.Ruled rows width')
    (hr : r.Stops rows) (hr' : r'.Stops rows)
    (h : List.zipWith (· ++ ·) b r = List.zipWith (· ++ ·) b' r') : b = b' ∧ r = r' := by
  obtain ⟨line, hline, hstop⟩ := hr.top
  obtain ⟨line', hline', hstop'⟩ := hr'.top
  have htop := congrArg (·[1]?) h
  simp only [List.getElem?_zipWith, hb.top_rule, hb'.top_rule, hline, hline',
    Option.some.injEq] at htop
  obtain ⟨rfl, -⟩ := replicate_append_inj hstop hstop' htop
  exact zipWith_inj hb.toRect hb'.toRect hr.length_eq hr'.length_eq h

end Block

/-! ## Columns -/

namespace Column

variable {c c' : Column} {heights heights' : List Nat}

/-- Every cell is at most as high as its row. -/
abbrev Fits (c : Column) (heights : List Nat) : Prop :=
  List.Forall₂ (fun cell height => cell.length ≤ height) c.cells heights

theorem fits_max (c : Column) (h : c.cells.length = heights.length) :
    c.Fits (List.zipWith max (c.cells.map List.length) heights) := by
  refine List.forall₂_iff_get.mpr ⟨by simp [h], fun i hi hi' => ?_⟩
  rw [List.get_eq_getElem, List.get_eq_getElem, List.getElem_zipWith, List.getElem_map]
  exact Nat.le_max_left _ _

theorem Fits.zipWith_max {lengths : List Nat} (h : c.Fits heights)
    (hlength : lengths.length = heights.length) : c.Fits (List.zipWith max lengths heights) := by
  obtain ⟨hlen, hle⟩ := List.forall₂_iff_get.mp h
  refine List.forall₂_iff_get.mpr ⟨by simp [hlen, hlength], fun i hi hi' => ?_⟩
  rw [List.get_eq_getElem, List.get_eq_getElem, List.getElem_zipWith]
  exact Nat.le_trans (hle i hi (hlen ▸ hi)) (Nat.le_max_right _ _)

theorem length_line (c : Column) {width : Nat} {text : List Char} (h : text.length ≤ width) :
    (c.line width text).length = width + 2 := by
  simp only [line, List.length_append, List.length_cons, c.align.length_pad h, List.length_nil]

theorem length_le_width {cell : Block} {text : List Char} (hcell : cell ∈ c.cells)
    (htext : text ∈ cell) : text.length ≤ c.width :=
  Nat.le_trans ((le_foldr_max List.length 0 cell).2 text htext)
    ((le_foldr_max Block.width c.title.length c.cells).2 cell hcell)

theorem title_le_width (c : Column) : c.title.length ≤ c.width :=
  (le_foldr_max Block.width c.title.length c.cells).1

/-- A cell at the height of its row. -/
theorem rect_drawCell {width height : Nat} {cell : Block} (c : Column)
    (hwidth : ∀ text ∈ cell, text.length ≤ width) (hheight : cell.length ≤ height) :
    (c.drawCell width cell height).Rect height (width + 2) where
  length_eq := by
    rw [drawCell, List.length_append, List.length_map, List.length_replicate]
    omega
  length_line line hline := by
    rcases List.mem_append.mp hline with hline | hline
    · obtain ⟨text, htext, rfl⟩ := List.mem_map.mp hline
      exact c.length_line (hwidth text htext)
    · rw [List.eq_of_mem_replicate hline]
      exact c.length_line (Nat.zero_le _)

/-- The rows of a column. -/
theorem rect_rows {width : Nat} (c : Column) {cells : List Block}
    (hwidth : ∀ cell ∈ cells, ∀ text ∈ cell, text.length ≤ width)
    (h : List.Forall₂ (fun cell height => cell.length ≤ height) cells heights) :
    Block.Rect heights.sum (width + 2)
      (List.zipWith (c.drawCell width) cells heights).flatten := by
  induction h with
  | nil => exact ⟨rfl, nofun⟩
  | @cons cell height cells heights hheight _ ih =>
    rw [List.forall_mem_cons] at hwidth
    have hcell := c.rect_drawCell hwidth.1 hheight
    have hrest := ih hwidth.2
    rw [List.zipWith_cons_cons, List.flatten_cons, List.sum_cons]
    refine ⟨by rw [List.length_append, hcell.length_eq, hrest.length_eq], fun line hline => ?_⟩
    rcases List.mem_append.mp hline with hline | hline
    · exact hcell.length_line line hline
    · exact hrest.length_line line hline

theorem ruled_strip (h : c.Fits heights) :
    (c.strip heights).Ruled heights.sum (c.width + 2) := by
  have hrows := c.rect_rows (fun cell hcell text htext => length_le_width hcell htext) h
  refine ⟨⟨?_, fun line hline => ?_⟩, by omega, rfl, ?_⟩
  · simp only [strip, List.length_append, List.length_cons, hrows.length_eq, List.length_nil]
  · simp only [strip, List.mem_append, List.mem_cons, List.not_mem_nil, or_false] at hline
    rcases hline with (rfl | rfl | hline) | rfl
    · exact c.length_line c.title_le_width
    · exact List.length_replicate
    · exact hrows.length_line line hline
    · exact List.length_replicate
  · have hlength := hrows.length_eq
    simp only [strip]
    rw [← hlength]
    exact List.getElem?_concat_length

/-! ### What a strip tells -/

/-- A strip tells the width of its column and its rows. -/
theorem rows_of_strip (h : c.strip heights = c'.strip heights') :
    c.width = c'.width ∧
      (List.zipWith (c.drawCell c.width) c.cells heights).flatten =
        (List.zipWith (c'.drawCell c'.width) c'.cells heights').flatten := by
  obtain ⟨-, htail⟩ := List.cons.inj h
  obtain ⟨hrule, hrows⟩ := List.cons.inj htail
  have hwidth := congrArg List.length hrule
  rw [List.length_replicate, List.length_replicate] at hwidth
  exact ⟨by omega, (List.append_inj' hrows rfl).1⟩

theorem line_inj {width : Nat} {x y : List Char} (halign : c.align = c'.align)
    (hx : c.align.Clear x) (hy : c.align.Clear y) (h : c.line width x = c'.line width y) :
    x = y := by
  unfold line at h
  rw [← halign] at h
  exact Align.pad_inj hx hy (List.append_inj' (List.cons.inj h).2 rfl).1

/-- Cells of one line each, in rows of one line each. -/
theorem rows_of_texts (c : Column) (width : Nat) (texts : List (List Char)) :
    (List.zipWith (c.drawCell width) (texts.map ([·])) (List.replicate texts.length 1)).flatten =
      texts.map (c.line width) := by
  induction texts with
  | nil => rfl
  | cons text rest ih =>
    rw [List.length_cons, List.replicate_succ, List.map_cons, List.zipWith_cons_cons,
      List.flatten_cons, ih]
    rfl

theorem map_line_inj {width : Nat} {texts texts' : List (List Char)} (halign : c.align = c'.align)
    (hclear : ∀ text ∈ texts, c.align.Clear text) (hclear' : ∀ text ∈ texts', c.align.Clear text)
    (h : texts.map (c.line width) = texts'.map (c'.line width)) : texts = texts' := by
  induction texts generalizing texts' with
  | nil => exact (List.map_eq_nil_iff.mp h.symm).symm
  | cons text rest ih =>
    cases texts' with
    | nil => cases h
    | cons text' rest' =>
      obtain ⟨htext, hrest⟩ := List.forall_mem_cons.mp hclear
      obtain ⟨htext', hrest'⟩ := List.forall_mem_cons.mp hclear'
      obtain ⟨hline, hlines⟩ := List.cons.inj h
      rw [line_inj halign htext htext' hline, ih hrest hrest' hlines]

/-- A strip of cells of one line each tells their texts. -/
theorem texts_of_strip {texts texts' : List (List Char)}
    (h : c.strip heights = c'.strip heights') (hcells : c.cells = texts.map ([·]))
    (hcells' : c'.cells = texts'.map ([·])) (hheights : heights = List.replicate texts.length 1)
    (hheights' : heights' = List.replicate texts'.length 1) (halign : c.align = c'.align)
    (hclear : ∀ text ∈ texts, c.align.Clear text) (hclear' : ∀ text ∈ texts', c.align.Clear text) :
    texts = texts' := by
  obtain ⟨hwidth, hrows⟩ := rows_of_strip h
  rw [hcells, hcells', hheights, hheights', rows_of_texts, rows_of_texts, ← hwidth] at hrows
  exact map_line_inj halign hclear hclear' hrows

theorem line_left {width : Nat} (hc : c.align = .left) (text : List Char) :
    c.line width text =
      ' ' :: (text ++ (List.replicate (width - text.length) ' ' ++ [' '])) := by
  rw [line, hc, Align.pad, List.cons_append, List.append_assoc]

/-- A block with a rule in its last line is not taken for a higher one that is blank below. -/
theorem map_line_of_drawCell {width height height' : Nat} {b b' : Block} (hc : c.align = .left)
    (hc' : c'.align = .left) (hlast : ∀ line ∈ b.getLast?, '─' ∈ line)
    (hlast' : ∀ line ∈ b'.getLast?, '─' ∈ line)
    (h : c.drawCell width b height = c'.drawCell width b' height') :
    b.map (c.line width) = b'.map (c'.line width) := by
  have hblank : c'.line width [] = c.line width [] := by rw [line_left hc, line_left hc']
  have hbelow {d : Column} (hd : d.align = .left) {a : Block}
      (ha : ∀ line ∈ a.getLast?, '─' ∈ line) :
      ∀ line ∈ (a.map (d.line width)).getLast?, line ≠ c.line width [] := by
    rw [List.getLast?_map]
    intro line hline heq
    obtain ⟨text, htext, rfl⟩ := Option.map_eq_some_iff.mp hline
    have hrule : '─' ∈ c.line width [] := by
      rw [← heq, line_left hd]
      exact List.mem_cons_of_mem _ (List.mem_append_left _ (ha text htext))
    simp [line_left hc] at hrule
  unfold drawCell at h
  rw [hblank] at h
  exact (append_replicate_inj (hbelow hc hlast) (hbelow hc' hlast') h).1

/-- Such a cell tells its lines, apart from the fill behind them. -/
theorem lines_of_drawCell {width rows rows' height height' v v' : Nat} {b b' : Block}
    (hc : c.align = .left) (hc' : c'.align = .left) (hb : b.Rect height v)
    (hb' : b'.Rect height' v') (hlast : ∀ line ∈ b.getLast?, '─' ∈ line)
    (hlast' : ∀ line ∈ b'.getLast?, '─' ∈ line)
    (h : c.drawCell width b rows = c'.drawCell width b' rows') :
    ∃ x x' : List Char, b.map (· ++ x) = b'.map (· ++ x') := by
  have hmap {d : Column} (hd : d.align = .left) {a : Block} {n w : Nat} (ha : a.Rect n w) :
      a.map (d.line width) =
        (a.map (· ++ (List.replicate (width - w) ' ' ++ [' ']))).map (' ' :: ·) := by
    rw [List.map_map]
    refine List.map_congr_left fun text htext => ?_
    rw [line_left hd, ha.length_line text htext]
    rfl
  have hlines := map_line_of_drawCell hc hc' hlast hlast' h
  rw [hmap hc hb, hmap hc' hb'] at hlines
  exact ⟨_, _, List.map_injective_iff.mpr List.cons_injective hlines⟩

end Column

/-! ## Tables -/

namespace Table

open Block

variable {n n' rows : Nat} {edge edge' : Block} {t t' : Table}

/-- Every column has a cell for each of so many rows. -/
def HasRows (n : Nat) (t : Table) : Prop := ∀ c ∈ t, c.cells.length = n

theorem fits_heights (h : t.HasRows n) : ∀ c ∈ t, c.Fits t.heights := by
  induction t with
  | nil => exact nofun
  | cons c rest ih =>
    obtain ⟨hc, hrest⟩ := List.forall_mem_cons.mp h
    cases rest with
    | nil =>
      refine List.forall_mem_singleton.mpr (List.forall₂_map_right_iff.mpr ?_)
      exact List.forall₂_same.mpr fun _ _ => Nat.le_refl _
    | cons d rest =>
      have hfits := ih hrest
      have hlength : c.cells.length = (heights (d :: rest)).length := by
        rw [hc, ← hrest d List.mem_cons_self, (hfits d List.mem_cons_self).length_eq]
      exact List.forall_mem_cons.mpr ⟨c.fits_max hlength, fun e he =>
        (hfits e he).zipWith_max (by rw [List.length_map, hlength])⟩

/-! ## Drawing -/

/-- What is drawn to the right of the first strip. -/
def right (rows : Nat) (edge : Block) : List Block → Block
  | [] => edge
  | b :: rest =>
    List.zipWith (· ++ ·) (divider rows) (List.zipWith (· ++ ·) b (right rows edge rest))

theorem beside_cons (b : Block) {rest : List Block} (h : rest ≠ []) :
    beside (b :: rest) = List.zipWith (· ++ ·) b (beside rest) := by
  cases rest with
  | nil => contradiction
  | cons c rest => rfl

theorem beside_intersperse (rows : Nat) (edge b : Block) (rest : List Block) :
    beside ((b :: rest).intersperse (divider rows) ++ [edge]) =
      List.zipWith (· ++ ·) b (right rows edge rest) := by
  induction rest generalizing b with
  | nil => rfl
  | cons c rest ih =>
    rw [List.intersperse_cons_cons, List.cons_append, List.cons_append,
      beside_cons _ (List.cons_ne_nil _ _), beside_cons _ (by simp), ih c]
    rfl

theorem draw_cons (c : Column) (rest : List Column) :
    draw (c :: rest) =
      List.zipWith (· ++ ·) (border (heights (c :: rest)).sum)
        (List.zipWith (· ++ ·) (c.strip (heights (c :: rest)))
          (right (heights (c :: rest)).sum (border (heights (c :: rest)).sum)
            (rest.map (·.strip (heights (c :: rest)))))) := by
  rw [draw, List.cons_append, beside_cons _ (by simp), List.map_cons, beside_intersperse]
  rfl

theorem rect_divider (rows : Nat) : (divider rows).Rect (rows + 3) 1 where
  length_eq := by simp [divider]
  length_line line h := by
    simp only [divider, List.mem_append, List.mem_cons, List.mem_replicate, List.not_mem_nil,
      or_false] at h
    rcases h with (rfl | rfl | ⟨-, rfl⟩) | rfl <;> rfl

theorem rect_border (rows : Nat) : (border rows).Rect (rows + 3) 1 := .replicate _ [' ']

theorem rect_right (hedge : ∃ w, edge.Rect (rows + 3) w) {strips : List Block}
    (hstrips : ∀ b ∈ strips, ∃ w, b.Ruled rows w) :
    ∃ w, (right rows edge strips).Rect (rows + 3) w := by
  induction strips with
  | nil => exact hedge
  | cons b rest ih =>
    obtain ⟨⟨w, hb⟩, hrest⟩ := List.forall_mem_cons.mp hstrips
    obtain ⟨v, hright⟩ := ih hrest
    exact ⟨_, (rect_divider rows).zipWith (hb.toRect.zipWith hright)⟩

/-- The rule of a strip ends at a divider, and at an edge. -/
theorem stops_right (hedge : edge.Stops rows) {strips : List Block}
    (hstrips : ∀ b ∈ strips, ∃ w, b.Ruled rows w) : (right rows edge strips).Stops rows := by
  induction strips with
  | nil => exact hedge
  | cons b rest ih =>
    obtain ⟨⟨w, hb⟩, hrest⟩ := List.forall_mem_cons.mp hstrips
    have hright := ih hrest
    obtain ⟨line, hline, -⟩ := hright.top
    refine ⟨?_, '┼' :: (List.replicate w '─' ++ line), ?_, ?_⟩
    · rw [right, List.length_zipWith, (rect_divider rows).length_eq, hb.length_zipWith hright,
        Nat.min_self]
    · simp only [right, List.getElem?_zipWith, hb.top_rule, hline]
      rfl
    · rintro c ⟨⟩
      decide

/-- Strips can be told apart, whatever is behind the last one. -/
theorem right_inj (hedge : edge.Stops rows) (hedge' : edge'.Stops rows)
    {strips strips' : List Block} (hlength : strips.length = strips'.length)
    (hstrips : ∀ b ∈ strips, ∃ w, b.Ruled rows w) (hstrips' : ∀ b ∈ strips', ∃ w, b.Ruled rows w)
    (h : right rows edge strips = right rows edge' strips') : strips = strips' := by
  induction strips generalizing strips' with
  | nil => exact (List.eq_nil_of_length_eq_zero hlength.symm).symm
  | cons b rest ih =>
    cases strips' with
    | nil => cases hlength
    | cons b' rest' =>
      obtain ⟨⟨w, hb⟩, hrest⟩ := List.forall_mem_cons.mp hstrips
      obtain ⟨⟨w', hb'⟩, hrest'⟩ := List.forall_mem_cons.mp hstrips'
      have hright := stops_right hedge hrest
      have hright' := stops_right hedge' hrest'
      obtain ⟨-, h⟩ := zipWith_inj (rect_divider rows) (rect_divider rows)
        (hb.length_zipWith hright) (hb'.length_zipWith hright') h
      obtain ⟨rfl, hbehind⟩ := zipWith_ruled_inj hb hb' hright hright' h
      rw [ih (Nat.succ.inj hlength) hrest hrest' hbehind]

/-! ## What a drawn table tells -/

theorem map_append_zipWith (b r : Block) (x : List Char) :
    (List.zipWith (· ++ ·) b r).map (· ++ x) = List.zipWith (· ++ ·) b (r.map (· ++ x)) := by
  rw [List.map_zipWith, List.zipWith_map_right]
  simp only [List.append_assoc]

theorem map_append_right (strips : List Block) (x : List Char) :
    (right rows edge strips).map (· ++ x) = right rows (edge.map (· ++ x)) strips := by
  induction strips with
  | nil => rfl
  | cons b rest ih => rw [right, map_append_zipWith, map_append_zipWith, ih, right]

theorem stops_border (rows : Nat) (x : List Char) :
    Block.Stops rows ((border rows).map (· ++ x)) where
  length_eq := by rw [List.length_map, (rect_border rows).length_eq]
  top := ⟨' ' :: x, rfl, by
    rintro c ⟨⟩
    decide⟩

theorem ruled_strips (h : t.HasRows n) :
    ∀ b ∈ t.map (·.strip t.heights), ∃ w, b.Ruled t.heights.sum w :=
  List.forall_mem_map.mpr fun c hc => ⟨_, c.ruled_strip (fits_heights h c hc)⟩

/-- A drawn table has two rules and a line of titles besides its rows, and all its lines have one
length. -/
theorem rect_draw (hne : t ≠ []) (h : t.HasRows n) :
    ∃ w, t.draw.Rect (t.heights.sum + 3) w := by
  obtain ⟨c, rest, rfl⟩ := List.exists_cons_of_ne_nil hne
  obtain ⟨⟨w, hstrip⟩, hrest⟩ := List.forall_mem_cons.mp (ruled_strips h)
  obtain ⟨v, hright⟩ := rect_right ⟨1, rect_border _⟩ hrest
  rw [draw_cons]
  exact ⟨_, (rect_border _).zipWith (hstrip.toRect.zipWith hright)⟩

/-- The last line of a table is a rule. -/
theorem rule_of_getLast?_draw (hne : t ≠ []) (h : t.HasRows n) :
    ∀ line ∈ t.draw.getLast?, '─' ∈ line := by
  intro line hline
  obtain ⟨w, hrect⟩ := rect_draw hne h
  have hlast : t.draw.getLast? = t.draw[t.heights.sum + 2]? := by
    rw [List.getLast?_eq_getElem?, hrect.length_eq]
    rfl
  obtain ⟨c, rest, rfl⟩ := List.exists_cons_of_ne_nil hne
  obtain ⟨⟨v, hstrip⟩, hrest⟩ := List.forall_mem_cons.mp (ruled_strips h)
  have hborder : (border (heights (c :: rest)).sum)[(heights (c :: rest)).sum + 2]? = some [' '] :=
    List.getElem?_replicate_of_lt (by omega)
  obtain ⟨u, hright⟩ := rect_right ⟨1, rect_border _⟩ hrest
  obtain ⟨behind, hbehind⟩ := hright.exists_line (Nat.lt_succ_self _)
  rw [hlast, draw_cons] at hline
  simp only [List.getElem?_zipWith, hborder, hstrip.bottom_rule, hbehind, Option.mem_def,
    Option.some.injEq] at hline
  subst hline
  have hpos := hstrip.width_pos
  have hrule : '─' ∈ List.replicate v '─' := List.mem_replicate.mpr ⟨by omega, rfl⟩
  exact List.mem_append_right _ (List.mem_append_left _ hrule)

/-- A table tells its strips, whatever is behind each of its lines. -/
theorem strips_of_draw (h : t.HasRows n) (h' : t'.HasRows n') (hlength : t.length = t'.length)
    {x x' : List Char} (heq : t.draw.map (· ++ x) = t'.draw.map (· ++ x')) :
    t.map (·.strip t.heights) = t'.map (·.strip t'.heights) := by
  cases t with
  | nil =>
    rw [List.eq_nil_of_length_eq_zero hlength.symm]
  | cons c rest =>
    cases t' with
    | nil => cases hlength
    | cons c' rest' =>
      have hrows : (heights (c :: rest)).sum = (heights (c' :: rest')).sum := by
        obtain ⟨w, hrect⟩ := rect_draw (List.cons_ne_nil _ _) h
        obtain ⟨w', hrect'⟩ := rect_draw (List.cons_ne_nil _ _) h'
        have hlen := congrArg List.length heq
        rw [List.length_map, List.length_map, hrect.length_eq, hrect'.length_eq] at hlen
        omega
      have hstrips := ruled_strips h
      have hstrips' := ruled_strips h'
      rw [draw_cons, draw_cons, map_append_zipWith, map_append_zipWith, map_append_zipWith,
        map_append_zipWith, map_append_right, map_append_right] at heq
      rw [← hrows] at heq hstrips'
      obtain ⟨⟨w, hstrip⟩, hrest⟩ := List.forall_mem_cons.mp hstrips
      obtain ⟨⟨w', hstrip'⟩, hrest'⟩ := List.forall_mem_cons.mp hstrips'
      have hright := stops_right (stops_border _ x) hrest
      have hright' := stops_right (stops_border _ x') hrest'
      obtain ⟨-, hcut⟩ := zipWith_inj (rect_border _) (rect_border _)
        (hstrip.length_zipWith hright) (hstrip'.length_zipWith hright') heq
      exact right_inj (stops_border _ x) (stops_border _ x') (by simpa using hlength)
        hstrips hstrips' (congrArg (List.zipWith (· ++ ·) (divider _)) hcut)

/-- So does a table that is the only cell of a column at the left, in a strip. -/
theorem strips_of_cell {c c' : Column} {height height' : Nat} (hc : c.align = .left)
    (hc' : c'.align = .left) (hcells : c.cells = [t.draw]) (hcells' : c'.cells = [t'.draw])
    (hne : t ≠ []) (h : t.HasRows n) (h' : t'.HasRows n') (hlength : t.length = t'.length)
    (heq : c.strip [height] = c'.strip [height']) :
    t.map (·.strip t.heights) = t'.map (·.strip t'.heights) := by
  have hne' : t' ≠ [] := by
    rintro rfl
    exact hne (List.eq_nil_of_length_eq_zero hlength)
  obtain ⟨w, hrect⟩ := rect_draw hne h
  obtain ⟨w', hrect'⟩ := rect_draw hne' h'
  obtain ⟨hwidth, hrows⟩ := Column.rows_of_strip heq
  rw [hcells, hcells', ← hwidth] at hrows
  simp only [List.zipWith_cons_cons, List.zipWith_nil_left, List.flatten_singleton] at hrows
  obtain ⟨x, x', hlines⟩ := Column.lines_of_drawCell hc hc' hrect hrect'
    (rule_of_getLast?_draw hne h) (rule_of_getLast?_draw hne' h') hrows
  exact strips_of_draw h h' hlength hlines

end Table

end StackMachine
