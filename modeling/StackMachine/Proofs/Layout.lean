import StackMachine.Display
import StackMachine.Proofs.Listing
import StackMachine.Proofs.Memory
import StackMachine.Proofs.Printing
import StackMachine.Proofs.Table

/-!
# The lines of the state as text

No text in the table of a state has a line feed in it, and neither has what the table is drawn with,
so the lines that are drawn are the lines of the text.

* `Address.mem_text`, `Word.mem_hexadecimal`: what characters are in the values;
* `Block.Unbroken`: no line of a block has a line feed; `unbroken_draw`: a table is drawn as such a
  block if there are no line feeds in its columns;
* `Block.text_eq_unlines`: the text of a block is its lines, each with its line end;
* `length_draw_listing`: how many lines a table of names and values has;
* `display_rectangular`: how many lines the state has as text, and that all are of one length.
-/
namespace StackMachine

open Text

/-! ## Characters of texts -/

theorem Address.mem_text {a : Address} {c : Char} (h : c ∈ a.text.toList) :
    c ∈ "CODEAT[]".toList ∨ c.isDigit = true := by
  have htext {name : String} {i : Nat} (hname : name.toList.all "CODEAT[]".toList.contains = true)
      (h : c ∈ (name ++ i.repr ++ "]").toList) : c ∈ "CODEAT[]".toList ∨ c.isDigit = true := by
    rw [String.toList_append, String.toList_append, List.mem_append, List.mem_append] at h
    rcases h with (h | h) | h
    · exact .inl (List.contains_iff_mem.mp (List.all_eq_true.mp hname c h))
    · exact .inr (isDigit_of_mem_repr h)
    · rw [List.mem_singleton.mp h]
      exact .inl (by decide)
  cases a with
  | code i => exact htext (by decide) h
  | data i => exact htext (by decide) h

theorem Address.newline_not_mem_text (a : Address) : '\n' ∉ a.text.toList := fun h =>
  absurd (mem_text h) (by decide)

theorem exists_digitChar {n : Nat} {c : Char} (h : c ∈ Nat.toDigits 16 n) :
    ∃ d < 16, Nat.digitChar d = c := by
  induction n using Nat.strongRecOn with
  | ind n ih =>
    rw [Nat.toDigits_eq_if (by decide)] at h
    split at h
    · exact ⟨n, ‹_›, (List.mem_singleton.mp h).symm⟩
    · rcases List.mem_append.mp h with h | h
      · exact ih (n / 16) (by omega) h
      · exact ⟨n % 16, Nat.mod_lt _ (by decide), (List.mem_singleton.mp h).symm⟩

theorem Word.mem_hexadecimal {w : Word} {c : Char} (h : c ∈ w.hexadecimal.toList) :
    c = 'x' ∨ ∃ d < 16, Nat.digitChar d = c := by
  simp only [hexadecimal, String.toList_append, String.toList_ofList, List.mem_append,
    List.mem_replicate] at h
  rcases h with h | ⟨-, rfl⟩ | h
  · rcases List.mem_pair.mp h with rfl | rfl
    · exact .inr ⟨0, by decide, rfl⟩
    · exact .inl rfl
  · exact .inr ⟨0, by decide, rfl⟩
  · exact .inr (exists_digitChar h)

theorem Instruction.newline_not_mem_text (i : Instruction) : '\n' ∉ i.text.toList := by
  rw [toList_text, List.mem_append, not_or]
  refine ⟨fun h => absurd (Opcode.isUpper_of_mem_mnemonic h) (by decide), ?_⟩
  split
  · exact List.not_mem_cons_of_ne_of_not_mem (by decide) (newline_not_mem_repr _)
  · exact List.not_mem_nil

theorem Machine.newline_not_mem_currentText (m : Machine) : '\n' ∉ m.currentText.toList := by
  unfold currentText
  split
  · exact Instruction.newline_not_mem_text _
  · exact fun h => absurd (Word.mem_hexadecimal h) (by decide)

/-! ## Blocks -/

namespace Block

/-- No line has a line feed in it. -/
def Unbroken (b : Block) : Prop := ∀ line ∈ b, '\n' ∉ line

variable {b r : Block}

theorem Unbroken.zipWith (hb : b.Unbroken) (hr : r.Unbroken) :
    Unbroken (List.zipWith (· ++ ·) b r) := by
  intro line hline
  obtain ⟨i, hi, rfl⟩ := List.mem_iff_getElem.mp hline
  rw [List.getElem_zipWith, List.mem_append, not_or]
  exact ⟨hb _ (List.getElem_mem _), hr _ (List.getElem_mem _)⟩

theorem unbroken_replicate {line : List Char} (h : '\n' ∉ line) (n : Nat) :
    Unbroken (List.replicate n line) := fun _ hline => by
  rwa [List.eq_of_mem_replicate hline]

/-- The text of a block is its lines, each with its line end. -/
theorem text_eq_unlines (b : Block) : b.text = unlines (b.map String.ofList) := by
  rw [← String.toList_inj, toList_text]
  induction b with
  | nil => rfl
  | cons line rest ih =>
    rw [List.flatMap_cons, ih, List.map_cons, unlines_cons, String.toList_append,
      String.toList_append, String.toList_ofList]
    rfl

end Block

/-! ## Tables -/

open Block

namespace Column

theorem newline_not_mem_line (c : Column) {width : Nat} {text : List Char} (h : '\n' ∉ text) :
    '\n' ∉ c.line width text := by
  cases hc : c.align <;> simp [line, Align.pad, hc, h]

theorem unbroken_drawCell (c : Column) {width height : Nat} {cell : Block} (h : cell.Unbroken) :
    (c.drawCell width cell height).Unbroken := by
  intro line hline
  rcases List.mem_append.mp hline with hline | hline
  · obtain ⟨text, htext, rfl⟩ := List.mem_map.mp hline
    exact c.newline_not_mem_line (h text htext)
  · exact unbroken_replicate (c.newline_not_mem_line List.not_mem_nil) _ line hline

/-- There is no line feed in the title and in the cells. -/
structure Unbroken (c : Column) : Prop where
  title : '\n' ∉ c.title
  cells : ∀ cell ∈ c.cells, cell.Unbroken

theorem Unbroken.strip {c : Column} (h : c.Unbroken) (heights : List Nat) :
    (c.strip heights).Unbroken := by
  have hrule (n : Nat) : '\n' ∉ List.replicate n '─' := by simp
  intro line hline
  simp only [Column.strip, List.mem_append, List.mem_cons, List.not_mem_nil, or_false] at hline
  rcases hline with (rfl | rfl | hline) | rfl
  · exact c.newline_not_mem_line h.title
  · exact hrule _
  · obtain ⟨cell, hcell, hline⟩ := List.mem_flatten.mp hline
    obtain ⟨i, hi, rfl⟩ := List.mem_iff_getElem.mp hcell
    rw [List.getElem_zipWith] at hline
    exact c.unbroken_drawCell (h.cells _ (List.getElem_mem _)) line hline
  · exact hrule _

end Column

namespace Table

theorem unbroken_divider (rows : Nat) : (divider rows).Unbroken := by
  intro line hline
  simp only [divider, List.mem_append, List.mem_cons, List.mem_replicate, List.not_mem_nil,
    or_false] at hline
  rcases hline with (rfl | rfl | ⟨-, rfl⟩) | rfl <;> decide

theorem unbroken_border (rows : Nat) : (border rows).Unbroken :=
  unbroken_replicate (by decide) _

theorem unbroken_right (rows : Nat) {strips : List Block} (h : ∀ b ∈ strips, b.Unbroken) :
    (right rows (border rows) strips).Unbroken := by
  induction strips with
  | nil => exact unbroken_border rows
  | cons b rest ih =>
    obtain ⟨hb, hrest⟩ := List.forall_mem_cons.mp h
    exact (unbroken_divider rows).zipWith (hb.zipWith (ih hrest))

/-- A table is drawn without line feeds if there are none in its columns. -/
theorem unbroken_draw {t : Table} (hne : t ≠ []) (h : ∀ c ∈ t, c.Unbroken) :
    t.draw.Unbroken := by
  obtain ⟨c, rest, rfl⟩ := List.exists_cons_of_ne_nil hne
  have hstrip : ∀ d ∈ c :: rest, (d.strip (heights (c :: rest))).Unbroken := fun d hd =>
    (h d hd).strip _
  obtain ⟨hc, hrest⟩ := List.forall_mem_cons.mp hstrip
  rw [draw_cons]
  exact (unbroken_border _).zipWith (hc.zipWith (unbroken_right _ (List.forall_mem_map.mpr hrest)))

end Table

/-! ## Names and values -/

namespace Machine

open Table

section
variable (title : String) (rows : List (String × String))

theorem hasRows_listing : (listing title rows).HasRows rows.length := by
  simp [listing, HasRows]

theorem heights_listing : (listing title rows).heights = List.replicate rows.length 1 := by
  simp [listing, heights, Function.comp_def, List.map_const']

/-- A table of names and values has one line for each row and three more. -/
theorem length_draw_listing : (listing title rows).draw.length = 3 + rows.length := by
  have hne : listing title rows ≠ [] := List.cons_ne_nil _ _
  obtain ⟨w, hrect⟩ := rect_draw hne (hasRows_listing title rows)
  rw [hrect.length_eq, heights_listing, List.sum_replicate_nat]
  omega

end

theorem unbroken_listing {title : String} {rows : List (String × String)}
    (htitle : '\n' ∉ title.toList)
    (hrows : ∀ row ∈ rows, '\n' ∉ row.1.toList ∧ '\n' ∉ row.2.toList) :
    (listing title rows).draw.Unbroken := by
  have hnames : ∀ cell ∈ rows.map fun row => [row.1.toList], Unbroken cell :=
    List.forall_mem_map.mpr fun row hrow => List.forall_mem_singleton.mpr (hrows row hrow).1
  have hvalues : ∀ cell ∈ rows.map fun row => [row.2.toList], Unbroken cell :=
    List.forall_mem_map.mpr fun row hrow => List.forall_mem_singleton.mpr (hrows row hrow).2
  have hcontents : '\n' ∉ "Contents".toList := by decide
  refine unbroken_draw (List.cons_ne_nil _ _) ?_
  exact List.forall_mem_cons.mpr ⟨⟨htitle, hnames⟩,
    List.forall_mem_singleton.mpr ⟨hcontents, hvalues⟩⟩

/-! ## The state -/

theorem length_draw_registerTable (m : Machine) : m.registerTable.draw.length = 8 :=
  length_draw_listing _ _

theorem length_draw_stackTable (m : Machine) :
    m.stackTable.draw.length = 3 + min stackWindow m.data.depth := by
  unfold stackTable
  rw [length_draw_listing, List.length_map, List.length_zipIdx, DataMemory.length_top]

theorem length_draw_callTable (m : Machine) : m.callTable.draw.length = 3 + m.calls.length := by
  unfold callTable
  rw [length_draw_listing, List.length_map, List.length_zipIdx, List.length_reverse]

theorem unbroken_registerTable (m : Machine) : m.registerTable.draw.Unbroken := by
  have hplace (a : Address) : '\n' ∉ a.text.toList := a.newline_not_mem_text
  refine unbroken_listing (by decide) ?_
  simp only [List.forall_mem_cons]
  exact ⟨⟨by decide, hplace _⟩, ⟨by decide, m.newline_not_mem_currentText⟩,
    ⟨by decide, hplace _⟩, ⟨by decide, hplace _⟩, ⟨by decide, newline_not_mem_repr _⟩, nofun⟩

theorem unbroken_stackTable (m : Machine) : m.stackTable.draw.Unbroken := by
  refine unbroken_listing (by decide) (List.forall_mem_map.mpr fun (w, i) _ => ⟨?_, ?_⟩)
  · have harrow : '\n' ∉ (if i = 0 then "* --> " else "").toList := by split <;> decide
    simp [harrow, newline_not_mem_toDigits]
  · exact fun h => absurd (Word.mem_decimal h) (by decide)

theorem unbroken_callTable (m : Machine) : m.callTable.draw.Unbroken := by
  refine unbroken_listing (by decide) (List.forall_mem_map.mpr fun (pc, i) _ => ⟨?_, ?_⟩)
  · simp [newline_not_mem_toDigits]
  · exact newline_not_mem_repr pc

theorem stateTable_ne_nil (m : Machine) : m.stateTable ≠ [] := List.cons_ne_nil _ _

theorem unbroken_stateTable (m : Machine) : m.stateTable.draw.Unbroken := by
  have hcolumn {title : String} {b : Block} (htitle : '\n' ∉ title.toList) (hb : b.Unbroken) :
      Column.Unbroken ⟨.left, title.toList, [b]⟩ := ⟨htitle, List.forall_mem_singleton.mpr hb⟩
  refine unbroken_draw m.stateTable_ne_nil ?_
  simp only [stateTable, List.forall_mem_cons]
  exact ⟨hcolumn (by decide) m.unbroken_registerTable, hcolumn (by decide) m.unbroken_stackTable,
    hcolumn (by decide) m.unbroken_callTable, nofun⟩

theorem hasRows_stateTable (m : Machine) : m.stateTable.HasRows 1 := by
  simp [stateTable, HasRows]

theorem heights_stateTable (m : Machine) :
    m.stateTable.heights = [max m.registerTable.draw.length
      (max m.stackTable.draw.length m.callTable.draw.length)] := rfl

theorem newline_not_mem_status (m : Machine) : '\n' ∉ m.status.toList := by
  unfold status
  split <;> decide

/-- **The state as text is a rectangle.** Behind the status line and its line end come whole lines
of one length. There are three of titles and rules, and as many as the highest of three tables has:
the registers have eight, and the others have three and one for each row, which is a word of the
operand stack, though no more than sixteen of them, or a return address. -/
theorem display_rectangular (m : Machine) :
    ∃ (lines : List String) (width : Nat),
      m.display = m.status ++ "\n" ++ unlines lines ∧
      lines.length = 3 + max 8 (max (3 + min 16 m.data.depth) (3 + m.calls.length)) ∧
      '\n' ∉ m.status.toList ∧
      ∀ line ∈ lines, '\n' ∉ line.toList ∧ line.length = width := by
  obtain ⟨width, hrect⟩ := rect_draw m.stateTable_ne_nil m.hasRows_stateTable
  refine ⟨m.stateTable.draw.map String.ofList, width, ?_, ?_, m.newline_not_mem_status, ?_⟩
  · unfold display
    rw [text_eq_unlines]
  · rw [List.length_map, hrect.length_eq, heights_stateTable, List.sum_singleton,
      length_draw_registerTable, length_draw_stackTable, length_draw_callTable, Nat.add_comm]
    rfl
  · refine List.forall_mem_map.mpr fun line hline => ?_
    rw [String.toList_ofList, String.length_ofList]
    exact ⟨m.unbroken_stateTable line hline, hrect.length_line line hline⟩

end Machine

end StackMachine
