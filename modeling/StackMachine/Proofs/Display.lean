import StackMachine.Proofs.Layout
import StackMachine.Proofs.ReadBack

/-!
# What the state of a machine as text tells

The registers, the top of the stack and the return addresses are three tables in the one row of a
fourth. Each table tells its strips, and no value in them ends with a space, so the text of a state
tells every value in it, and the values tell what they are the texts of.

* `clear_of_not_mem`, `Machine.clear_currentText`: no value ends with a space;
* `Machine.Lists`: a table lists these values; `Lists.values_of_cell`: its strip in another table
  tells them;
* `status_of_display`, `values_of_draw`: the text of a state tells the status line and all values;
* `display_eq_iff`: two states have the same text exactly if they agree in what is shown.
-/
namespace StackMachine

/-! ## Texts without a space at the end -/

namespace Align

theorem clear_of_not_mem {side : Align} {text : List Char} (h : ' ' ∉ text) : side.Clear text := by
  cases side with
  | left =>
    rintro c hc rfl
    exact h (List.mem_of_getLast? hc)
  | right =>
    rintro c hc rfl
    exact h (List.mem_of_head? hc)

theorem clear_repr {side : Align} (n : Nat) : side.Clear n.repr.toList :=
  clear_of_not_mem fun h => absurd (Text.isDigit_of_mem_repr h) (by decide)

theorem Clear.append {x y : List Char} (h : Align.left.Clear y) (hne : y ≠ []) :
    Align.left.Clear (x ++ y) := by
  intro c hc
  rw [List.getLast?_append, List.getLast?_eq_some_getLast hne, Option.some_or] at hc
  exact h c (by rwa [List.getLast?_eq_some_getLast hne])

end Align

theorem Instruction.clear_text (i : Instruction) : Align.left.Clear i.text.toList := by
  unfold text
  split
  · rw [String.toList_append]
    refine Align.Clear.append (Align.clear_repr _) ?_
    rw [Nat.toList_repr]
    exact Nat.toDigits_ne_nil
  · exact Align.clear_of_not_mem fun h => absurd (Opcode.isUpper_of_mem_mnemonic h) (by decide)

theorem Machine.clear_currentText (m : Machine) : Align.left.Clear m.currentText.toList := by
  unfold currentText
  split
  · exact Instruction.clear_text _
  · exact Align.clear_of_not_mem fun h => absurd (Word.mem_hexadecimal h) (by decide)

/-! ## What texts tell -/

theorem Address.text_inj {a b : Address} (h : a.text = b.text) : a = b := by
  have hfirst (i j : Nat) : (code i).text ≠ (data j).text := fun h => by
    have hlist : (code i).text.toList = (data j).text.toList := by rw [h]
    simp [text] at hlist
  cases a with
  | code i =>
    cases b with
    | code j => rw [repr_inj ((String.append_right_inj _).mp ((String.append_left_inj _).mp h))]
    | data j => exact absurd h (hfirst i j)
  | data i =>
    cases b with
    | code j => exact absurd h.symm (hfirst j i)
    | data j => rw [repr_inj ((String.append_right_inj _).mp ((String.append_left_inj _).mp h))]

theorem Word.decimal_inj {v w : Word} (h : v.decimal = w.decimal) : v = w := by
  have hv := v.integer?_decimal
  rw [h, w.integer?_decimal] at hv
  exact (Option.some.inj hv).symm

/-! ## The top of the stack -/

namespace DataMemory

theorem getElem?_top (d : DataMemory) {n i : Nat} (h : i < n) :
    (d.top n)[i]? = d.cells[d.sp + i]? := by
  rw [top_eq_take, List.getElem?_take, if_pos h, getElem?_stack]

/-- The tops of two stacks are the same if they have as many words, and the same ones. -/
theorem top_eq_iff {d e : DataMemory} {n : Nat} :
    d.top n = e.top n ↔ min n d.depth = min n e.depth ∧
      ∀ i < min n d.depth, ∃ w, d.cells[d.sp + i]? = some w ∧ e.cells[e.sp + i]? = some w := by
  constructor
  · intro h
    refine ⟨by rw [← length_top, h, length_top], fun i hi => ?_⟩
    have hn : i < n := by omega
    rw [← length_top] at hi
    refine ⟨(d.top n)[i], ?_, ?_⟩
    · rw [← getElem?_top d hn, List.getElem?_eq_getElem hi]
    · rw [← getElem?_top e hn, ← h, List.getElem?_eq_getElem hi]
  · rintro ⟨hlength, h⟩
    refine List.ext_getElem? fun i => ?_
    by_cases hi : i < min n d.depth
    · obtain ⟨w, hd, he⟩ := h i hi
      rw [getElem?_top d (by omega), getElem?_top e (by omega), hd, he]
    · rw [List.getElem?_eq_none (by rw [length_top]; omega),
        List.getElem?_eq_none (by rw [length_top]; omega)]

end DataMemory

/-! ## Names and values -/

namespace Machine

open Table

/-- The table lists these values, and none of them ends with a space. -/
structure Lists (t : Table) (values : List String) : Prop where
  clear : ∀ value ∈ values, Align.left.Clear value.toList
  listing_eq : ∃ title rows, t = listing title rows ∧ rows.map (·.2) = values

namespace Lists

variable {t t' : Table} {values values' : List String}

theorem hasRows (h : Lists t values) : t.HasRows values.length := by
  obtain ⟨title, rows, rfl, rfl⟩ := h.listing_eq
  rw [List.length_map]
  exact hasRows_listing title rows

theorem heights_eq (h : Lists t values) : t.heights = List.replicate values.length 1 := by
  obtain ⟨title, rows, rfl, rfl⟩ := h.listing_eq
  rw [List.length_map]
  exact heights_listing title rows

theorem length_eq (h : Lists t values) : t.length = 2 := by
  obtain ⟨title, rows, rfl, -⟩ := h.listing_eq
  rfl

/-- The strips tell the values. -/
theorem values_of_strips (h : Lists t values) (h' : Lists t' values')
    (heq : t.map (·.strip t.heights) = t'.map (·.strip t'.heights)) : values = values' := by
  have hheights := h.heights_eq
  have hheights' := h'.heights_eq
  have hclear := h.clear
  have hclear' := h'.clear
  obtain ⟨title, rows, rfl, rfl⟩ := h.listing_eq
  obtain ⟨title', rows', rfl, rfl⟩ := h'.listing_eq
  obtain ⟨hvalues, -⟩ := List.cons.inj (List.cons.inj heq).2
  have hinj : Function.Injective String.toList := fun _ _ => String.toList_inj.mp
  refine List.map_injective_iff.mpr hinj ?_
  refine Column.texts_of_strip hvalues ?_ ?_ ?_ ?_ rfl ?_ ?_
  · rw [List.map_map, List.map_map]
    rfl
  · rw [List.map_map, List.map_map]
    rfl
  · simp only [hheights, List.length_map]
  · simp only [hheights', List.length_map]
  · exact List.forall_mem_map.mpr hclear
  · exact List.forall_mem_map.mpr hclear'

/-- So does the strip of a table that is the only cell of its column. -/
theorem values_of_cell (h : Lists t values) (h' : Lists t' values') {title title' : List Char}
    {height height' : Nat}
    (heq : Column.strip ⟨.left, title, [t.draw]⟩ [height] =
      Column.strip ⟨.left, title', [t'.draw]⟩ [height']) : values = values' := by
  have hne : t ≠ [] := List.ne_nil_of_length_pos (by rw [h.length_eq]; decide)
  exact h.values_of_strips h' (strips_of_cell rfl rfl rfl rfl hne h.hasRows h'.hasRows
    (h.length_eq.trans h'.length_eq.symm) heq)

end Lists

variable {m m' : Machine}

/-- The values of the registers. -/
def registers (m : Machine) : List String :=
  [(Address.code m.pc).text, m.currentText, (Address.data m.data.sp).text,
    (Address.data m.data.limit).text, m.data.underflows.repr]

theorem lists_registerTable (m : Machine) : Lists m.registerTable m.registers where
  clear := by
    simp only [registers, List.forall_mem_cons]
    have hplace (a : Address) : Align.left.Clear a.text.toList :=
      Align.clear_of_not_mem fun h => absurd (Address.mem_text h) (by decide)
    exact ⟨hplace _, m.clear_currentText, hplace _, hplace _, Align.clear_repr _, nofun⟩
  listing_eq := ⟨_, _, rfl, rfl⟩

theorem lists_stackTable (m : Machine) :
    Lists m.stackTable ((m.data.top stackWindow).map Word.decimal) where
  clear := List.forall_mem_map.mpr fun w _ =>
    Align.clear_of_not_mem fun h => absurd (Word.mem_decimal h) (by decide)
  listing_eq := ⟨_, _, rfl, by
    have hwords := congrArg (List.map Word.decimal)
      (List.zipIdx_map_fst 0 (m.data.top stackWindow))
    rw [List.map_map] at hwords ⊢
    exact hwords⟩

theorem lists_callTable (m : Machine) :
    Lists m.callTable (m.calls.reverse.map Nat.repr) where
  clear := List.forall_mem_map.mpr fun n _ => Align.clear_repr n
  listing_eq := ⟨_, _, rfl, by
    have hcalls := congrArg (List.map Nat.repr) (List.zipIdx_map_fst 0 m.calls.reverse)
    rw [List.map_map] at hcalls ⊢
    exact hcalls⟩

/-! ## The state -/

theorem length_stateTable (m : Machine) : m.stateTable.length = 3 := rfl

theorem status_inj (h : m.status = m'.status) : m.running = m'.running := by
  have hne : "Running." ≠ "Halted." := by decide
  unfold status at h
  cases hm : m.running <;> cases hm' : m'.running <;> simp_all

theorem toList_display (m : Machine) :
    m.display.toList = m.status.toList ++ '\n' :: m.stateTable.draw.text.toList := by
  simp [display]

theorem status_of_display (h : m.display = m'.display) :
    m.status = m'.status ∧ m.stateTable.draw = m'.stateTable.draw := by
  have hlist : m.display.toList = m'.display.toList := by rw [h]
  rw [toList_display, toList_display] at hlist
  obtain ⟨hstatus, htext⟩ :=
    append_cons_inj m.newline_not_mem_status m'.newline_not_mem_status hlist
  obtain ⟨w, hrect⟩ := rect_draw m.stateTable_ne_nil m.hasRows_stateTable
  obtain ⟨w', hrect'⟩ := rect_draw m'.stateTable_ne_nil m'.hasRows_stateTable
  have hfirst (m : Machine) : ∀ line ∈ m.stateTable.draw.head?, '\n' ∉ line := fun line hline =>
    m.unbroken_stateTable line (List.mem_of_mem_head? hline)
  exact ⟨String.toList_inj.mp hstatus, hrect.text_inj hrect' (hfirst m) (hfirst m')
    (String.toList_inj.mp htext)⟩

/-- The table of tables tells the values in all three. -/
theorem values_of_draw (h : m.stateTable.draw = m'.stateTable.draw) :
    m.registers = m'.registers ∧
      (m.data.top stackWindow).map Word.decimal = (m'.data.top stackWindow).map Word.decimal ∧
      m.calls.reverse.map Nat.repr = m'.calls.reverse.map Nat.repr := by
  have hstrips := strips_of_draw m.hasRows_stateTable m'.hasRows_stateTable
    (m.length_stateTable.trans m'.length_stateTable.symm) (congrArg (List.map (· ++ [])) h)
  rw [heights_stateTable, heights_stateTable] at hstrips
  obtain ⟨hregisters, hrest⟩ := List.cons.inj hstrips
  obtain ⟨hstack, hrest⟩ := List.cons.inj hrest
  obtain ⟨hcalls, -⟩ := List.cons.inj hrest
  exact ⟨m.lists_registerTable.values_of_cell m'.lists_registerTable hregisters,
    m.lists_stackTable.values_of_cell m'.lists_stackTable hstack,
    m.lists_callTable.values_of_cell m'.lists_callTable hcalls⟩

theorem display_congr (hrunning : m.running = m'.running) (hpc : m.pc = m'.pc)
    (hir : m.currentText = m'.currentText) (hsp : m.data.sp = m'.data.sp)
    (hlimit : m.data.limit = m'.data.limit) (hunderflows : m.data.underflows = m'.data.underflows)
    (hcalls : m.calls = m'.calls) (htop : m.data.top stackWindow = m'.data.top stackWindow) :
    m.display = m'.display := by
  unfold display status stateTable registerTable stackTable callTable
  rw [hrunning, hpc, hir, hsp, hlimit, hunderflows, hcalls, htop]

/-- **The table hides and confuses nothing that it shows.** The table of the operand stack has a row
for each word, but for no more than 16. Two states have the same text exactly if they have the same
run flag, program counter, stack pointer, mark and number of underflows, the same text for the
instruction register, the same return addresses, and the same words, as many of them as are shown,
from the stack pointer on. -/
theorem display_eq_iff (m m' : Machine) :
    m.stackTable.heights.length = min 16 m.data.depth ∧
    (m.display = m'.display ↔
      m.running = m'.running ∧ m.pc = m'.pc ∧ m.currentText = m'.currentText ∧
      m.data.sp = m'.data.sp ∧ m.data.limit = m'.data.limit ∧
      m.data.underflows = m'.data.underflows ∧ m.calls = m'.calls ∧
      min 16 m.data.depth = min 16 m'.data.depth ∧
      ∀ i < min 16 m.data.depth, ∃ w,
        m.data.cells[m.data.sp + i]? = some w ∧ m'.data.cells[m'.data.sp + i]? = some w) := by
  refine ⟨?_, fun h => ?_, fun h => ?_⟩
  · rw [m.lists_stackTable.heights_eq, List.length_replicate, List.length_map,
      DataMemory.length_top]
    rfl
  · obtain ⟨hstatus, hdraw⟩ := status_of_display h
    obtain ⟨hregisters, hstack, hcalls⟩ := values_of_draw hdraw
    have hdecimal : Function.Injective Word.decimal := fun _ _ => Word.decimal_inj
    have hrepr : Function.Injective Nat.repr := fun _ _ => repr_inj
    have htop := List.map_injective_iff.mpr hdecimal hstack
    simp only [registers, List.cons.injEq] at hregisters
    obtain ⟨hpc, hir, hsp, hlimit, hunderflows, -⟩ := hregisters
    exact ⟨status_inj hstatus, Address.code.inj (Address.text_inj hpc), hir,
      Address.data.inj (Address.text_inj hsp), Address.data.inj (Address.text_inj hlimit),
      repr_inj hunderflows, List.reverse_inj.mp (List.map_injective_iff.mpr hrepr hcalls),
      DataMemory.top_eq_iff.mp htop⟩
  · obtain ⟨hrunning, hpc, hir, hsp, hlimit, hunderflows, hcalls, hwords⟩ := h
    exact display_congr hrunning hpc hir hsp hlimit hunderflows hcalls
      (DataMemory.top_eq_iff.mpr hwords)

end Machine

end StackMachine
