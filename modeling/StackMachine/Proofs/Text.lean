import StackMachine.Console.Input

/-!
# Lines, characters and tokens

What the lines of a stream, the characters of a line and the tokens of a text are, said without the
functions that find them.

* `Lines`: a list cut after each separator; `lines_iff`: `splitLines` cuts like this;
* `Runs`: the longest runs without a blank character; `runs_iff`: they are the tokens;
* `utf8`: the bytes of a text; `decodeLine?_eq_some_iff`: decoding undoes it;
* `Lines.utf8`, `Lines.tokens_eq`: a text is cut where its bytes are, and no cut is inside a token;
* `Whole`: a text of whole lines; `exists_unlines`: it is these lines, each with its line end.
-/
namespace StackMachine.Text

/-! ## Lines -/

section
variable {α : Type} {separator : α}

/-- A list cut after each separator. The last piece need not end with one, but is not empty. -/
inductive Lines (separator : α) : List α → List (List α) → Prop
  | nil : Lines separator [] []
  | last {line : List α} (hne : line ≠ []) (h : separator ∉ line) : Lines separator line [line]
  | cons {line rest : List α} {lines : List (List α)} (h : separator ∉ line)
    (hrest : Lines separator rest lines) :
    Lines separator (line ++ separator :: rest) ((line ++ [separator]) :: lines)

theorem exists_lines (separator : α) (text : List α) : ∃ lines, Lines separator text lines := by
  induction h : text.length using Nat.strongRecOn generalizing text with
  | ind n ih =>
    by_cases hmem : separator ∈ text
    · obtain ⟨line, rest, rfl, hline⟩ := List.eq_append_cons_of_mem hmem
      have hlt : rest.length < n := by
        rw [← h, List.length_append, List.length_cons]
        omega
      obtain ⟨lines, hlines⟩ := ih rest.length hlt rest rfl
      exact ⟨_, .cons hline hlines⟩
    · cases text with
      | nil => exact ⟨[], .nil⟩
      | cons c text => exact ⟨_, .last (List.cons_ne_nil _ _) hmem⟩

/-- The first lines of a list are the lines of a list. -/
theorem Lines.take {first rest : List (List α)} : ∀ {text : List α},
    Lines separator text (first ++ rest) → Lines separator first.flatten first := by
  induction first with
  | nil => exact fun _ => .nil
  | cons line first ih =>
    intro text h
    rw [List.cons_append] at h
    generalize hlines : line :: (first ++ rest) = lines at h
    cases h with
    | nil => cases hlines
    | last hne h =>
      obtain ⟨rfl, hnil⟩ := List.cons.inj hlines
      obtain ⟨rfl, -⟩ := List.append_eq_nil_iff.mp hnil
      rw [List.flatten_singleton]
      exact .last hne h
    | cons h hrest =>
      cases hlines
      have hfirst := Lines.cons h (ih hrest)
      rw [List.flatten_cons, List.append_assoc]
      exact hfirst

end

theorem splitLines_append_newline {line : List UInt8} (h : newline ∉ line) (rest : List UInt8) :
    splitLines (line ++ newline :: rest) = (line ++ [newline]) :: splitLines rest := by
  induction line with
  | nil =>
    show consLine newline (splitLines rest) = _
    cases splitLines rest with
    | nil => rfl
    | cons first others => rw [consLine, if_pos rfl]; rfl
  | cons b line ih =>
    obtain ⟨hb, hline⟩ := List.ne_and_not_mem_of_not_mem_cons h
    show consLine b (splitLines (line ++ newline :: rest)) = _
    rw [ih hline, consLine, if_neg (Ne.symm hb)]
    rfl

theorem splitLines_of_not_mem {line : List UInt8} (hne : line ≠ []) (h : newline ∉ line) :
    splitLines line = [line] := by
  induction line with
  | nil => exact absurd rfl hne
  | cons b line ih =>
    obtain ⟨hb, hline⟩ := List.ne_and_not_mem_of_not_mem_cons h
    show consLine b (splitLines line) = _
    cases line with
    | nil => rfl
    | cons c line => rw [ih (List.cons_ne_nil _ _) hline, consLine, if_neg (Ne.symm hb)]

theorem lines_iff {bytes : List UInt8} {lines : List (List UInt8)} :
    Lines newline bytes lines ↔ lines = splitLines bytes := by
  have unique {lines : List (List UInt8)} (h : Lines newline bytes lines) :
      lines = splitLines bytes := by
    induction h with
    | nil => rfl
    | last hne h => rw [splitLines_of_not_mem hne h]
    | cons h _ ih => rw [splitLines_append_newline h, ih]
  refine ⟨unique, ?_⟩
  rintro rfl
  obtain ⟨lines, hlines⟩ := exists_lines newline bytes
  rwa [← unique hlines]

/-! ## Tokens -/

/-- The longest runs of a text without a blank character, in order. -/
inductive Runs : List Char → List (List Char) → Prop
  | nil : Runs [] []
  | blank {c : Char} {text : List Char} {runs : List (List Char)} (hc : isBlank c = true)
    (h : Runs text runs) : Runs (c :: text) runs
  | run {run text : List Char} {runs : List (List Char)} (hne : run ≠ [])
    (hrun : ∀ c ∈ run, isBlank c = false) (hend : ∀ c ∈ text.head?, isBlank c = true)
    (h : Runs text runs) : Runs (run ++ text) (run :: runs)

/-- A character that is not blank extends the first run, or is one of its own. -/
theorem Runs.extend {c : Char} (hc : isBlank c = false) {text : List Char}
    {runs : List (List Char)} (h : Runs text runs) : ∃ runs, Runs (c :: text) runs := by
  have alone : ∀ d ∈ [c], isBlank d = false := List.forall_mem_singleton.mpr hc
  cases h with
  | nil => exact ⟨_, .run (List.cons_ne_nil _ _) alone nofun .nil⟩
  | blank hd h =>
    refine ⟨_, .run (List.cons_ne_nil c []) alone (fun d hhead => ?_) (.blank hd h)⟩
    obtain rfl := Option.some.inj hhead
    exact hd
  | run hne hrun hend h =>
    exact ⟨_, .run (List.cons_ne_nil c _) (List.forall_mem_cons.mpr ⟨hc, hrun⟩) hend h⟩

theorem exists_runs (text : List Char) : ∃ runs, Runs text runs := by
  induction text with
  | nil => exact ⟨[], .nil⟩
  | cons c text ih =>
    obtain ⟨runs, h⟩ := ih
    cases hc : isBlank c with
    | true => exact ⟨runs, .blank hc h⟩
    | false => exact h.extend hc

theorem pieces_of_none {separates : Char → Bool} {piece : List Char}
    (h : ∀ c ∈ piece, separates c = false) : pieces separates piece = [piece] := by
  induction piece with
  | nil => rfl
  | cons c piece ih =>
    obtain ⟨hc, hpiece⟩ := List.forall_mem_cons.mp h
    show consPiece separates c (pieces separates piece) = _
    rw [ih hpiece, consPiece, hc]
    rfl

theorem tokens_of_run {run : List Char} (hne : run ≠ []) (h : ∀ c ∈ run, isBlank c = false) :
    tokens run = [run] := by
  unfold tokens
  rw [pieces_of_none h]
  cases run with
  | nil => exact absurd rfl hne
  | cons c run => rfl

theorem tokens_cons_blank {c : Char} (hc : isBlank c = true) (text : List Char) :
    tokens (c :: text) = tokens text :=
  tokens_append_blank [] text c hc

theorem runs_iff {text : List Char} {runs : List (List Char)} :
    Runs text runs ↔ runs = tokens text := by
  have unique {runs : List (List Char)} (h : Runs text runs) : runs = tokens text := by
    induction h with
    | nil => rfl
    | blank hc _ ih => rw [tokens_cons_blank hc, ih]
    | @run run text runs hne hrun hend _ ih =>
      rw [ih]
      cases text with
      | nil => rw [List.append_nil, tokens_of_run hne hrun]; rfl
      | cons c text =>
        have hc := hend c rfl
        rw [tokens_append_blank run text c hc, tokens_of_run hne hrun, tokens_cons_blank hc]
        rfl
  refine ⟨unique, ?_⟩
  rintro rfl
  obtain ⟨runs, hruns⟩ := exists_runs text
  rwa [← unique hruns]

/-! ## Characters -/

/-- The bytes of a text. -/
def utf8 (text : List Char) : List UInt8 := text.flatMap String.utf8EncodeChar

@[simp] theorem utf8_append (a b : List Char) : utf8 (a ++ b) = utf8 a ++ utf8 b :=
  List.flatMap_append

theorem utf8_eq_nil_iff {text : List Char} : utf8 text = [] ↔ text = [] := by
  cases text with
  | nil => exact ⟨fun _ => rfl, fun _ => rfl⟩
  | cons c text =>
    unfold utf8
    simp [String.utf8EncodeChar_ne_nil]

theorem utf8_newline : utf8 ['\n'] = [newline] := rfl

/-- A text of ASCII characters has one byte for each. -/
theorem utf8_of_ascii {text : List Char} (h : ∀ c ∈ text, c.val ≤ 127) :
    utf8 text = text.map (·.val.toUInt8) := by
  induction text with
  | nil => rfl
  | cons c text ih =>
    obtain ⟨hc, htext⟩ := List.forall_mem_cons.mp h
    show String.utf8EncodeChar c ++ utf8 text = _
    rw [ih htext, String.utf8EncodeChar_eq_singleton (Char.utf8Size_eq_one_iff.mpr hc)]
    rfl

theorem newline_eq_ofNat {n : Nat} (h : n < 256) : newline = UInt8.ofNat n ↔ n = 10 := by
  rw [← UInt8.toNat_inj, UInt8.toNat_ofNat', Nat.mod_eq_of_lt h]
  exact eq_comm

/-- Where a character has several bytes, all of them are 128 or more. -/
theorem newline_mem_utf8EncodeChar {c : Char} :
    newline ∈ String.utf8EncodeChar c ↔ c = '\n' := by
  constructor
  · intro h
    unfold String.utf8EncodeChar at h
    dsimp only at h
    split at h
    · rw [List.mem_singleton, newline_eq_ofNat (by omega)] at h
      exact Char.ext (UInt32.toNat_inj.mp h)
    · repeat' split at h
      all_goals
        simp only [List.mem_cons, List.not_mem_nil, or_false] at h
        repeat rw [newline_eq_ofNat (by omega)] at h
        omega
  · rintro rfl
    exact List.mem_singleton_self _

theorem newline_mem_utf8 {text : List Char} : newline ∈ utf8 text ↔ '\n' ∈ text := by
  unfold utf8
  rw [List.mem_flatMap]
  constructor
  · rintro ⟨c, hc, h⟩
    rwa [← newline_mem_utf8EncodeChar.mp h]
  · exact fun h => ⟨'\n', h, newline_mem_utf8EncodeChar.mpr rfl⟩

theorem decodeLine?_eq_some_iff {line : List UInt8} {text : List Char} :
    Input.decodeLine? line = some text ↔ line = utf8 text := by
  unfold Input.decodeLine? String.fromUTF8?
  constructor
  · intro h
    obtain ⟨s, hs, rfl⟩ := Option.map_eq_some_iff.mp h
    split at hs
    · have hbytes : line.toByteArray = s.toList.utf8Encode := by
        rw [String.utf8Encode_toList, ← Option.some.inj hs]
        rfl
      have hdata := congrArg (·.data.toList) hbytes
      simpa [List.utf8Encode, utf8] using hdata
    · cases hs
  · rintro rfl
    have hvalid : (utf8 text).toByteArray.IsValidUTF8 := ⟨text, rfl⟩
    rw [dif_pos hvalid]
    have htext : String.fromUTF8 (utf8 text).toByteArray hvalid = String.ofList text := rfl
    rw [htext, Option.map_some, String.toList_ofList]

/-- The digits of a number are digits. -/
theorem isDigit_of_mem_toDigits {n : Nat} {c : Char} (h : c ∈ Nat.toDigits 10 n) :
    c.isDigit = true :=
  Nat.isDigit_of_mem_toDigits (by decide) (by decide) h

theorem isDigit_of_mem_repr {n : Nat} {c : Char} (h : c ∈ n.repr.toList) : c.isDigit = true := by
  rw [Nat.toList_repr] at h
  exact isDigit_of_mem_toDigits h

theorem newline_not_mem_toDigits (n : Nat) : '\n' ∉ Nat.toDigits 10 n := fun h =>
  absurd (isDigit_of_mem_toDigits h) (by decide)

theorem newline_not_mem_repr (n : Nat) : '\n' ∉ n.repr.toList := fun h =>
  absurd (isDigit_of_mem_repr h) (by decide)

/-! ## Lines of text -/

theorem Lines.utf8 {text : List Char} {lines : List (List Char)} (h : Lines '\n' text lines) :
    Lines newline (utf8 text) (lines.map Text.utf8) := by
  induction h with
  | nil => exact .nil
  | @last line hne h =>
    exact .last (mt utf8_eq_nil_iff.mp hne) (mt newline_mem_utf8.mp h)
  | @cons line rest lines h _ ih =>
    rw [List.append_cons, utf8_append, utf8_append, utf8_newline, List.map_cons, utf8_append,
      utf8_newline, ← List.append_cons]
    exact .cons (mt newline_mem_utf8.mp h) ih

/-- A line feed is blank, so the tokens of a text are those of its lines. -/
theorem Lines.tokens_eq {text : List Char} {lines : List (List Char)} (h : Lines '\n' text lines) :
    tokens text = lines.flatMap tokens := by
  induction h with
  | nil => rfl
  | last => rw [List.flatMap_cons, List.flatMap_nil, List.append_nil]
  | cons _ _ ih =>
    rw [tokens_append_blank _ _ _ isBlank_newline, List.flatMap_cons,
      tokens_append_blank _ _ _ isBlank_newline, ih, show tokens [] = [] from rfl, List.append_nil]

/-! ## Whole lines -/

/-- Lines, each with its line end. -/
def unlines (lines : List String) : String := String.join (lines.map (· ++ "\n"))

@[simp] theorem unlines_nil : unlines [] = "" := rfl

@[simp] theorem unlines_cons (line : String) (lines : List String) :
    unlines (line :: lines) = line ++ "\n" ++ unlines lines := by
  simp [unlines]

@[simp] theorem unlines_append (a b : List String) :
    unlines (a ++ b) = unlines a ++ unlines b := by
  simp [unlines]

/-- The text is empty or ends with a line feed. -/
def Whole (text : String) : Prop := ∀ c ∈ text.toList.getLast?, c = '\n'

theorem Whole.append {a b : String} (ha : Whole a) (hb : Whole b) : Whole (a ++ b) := by
  intro c hc
  rw [String.toList_append, List.getLast?_append, Option.mem_def, Option.or_eq_some_iff] at hc
  rcases hc with hc | ⟨-, hc⟩
  · exact hb c hc
  · exact ha c hc

theorem whole_line (line : String) : Whole (line ++ "\n") := by
  intro c hc
  rw [String.toList_append, show "\n".toList = ['\n'] from rfl, List.getLast?_concat] at hc
  exact (Option.some.inj hc).symm

/-- A text of whole lines consists of lines with their line ends. -/
theorem exists_unlines {text : String} (h : Whole text) :
    ∃ lines, (∀ line ∈ lines, '\n' ∉ line.toList) ∧ text = unlines lines := by
  obtain ⟨lines, hlines⟩ := exists_lines '\n' text.toList
  generalize hl : text.toList = l at hlines
  induction hlines generalizing text with
  | nil => exact ⟨[], nofun, String.toList_eq_nil_iff.mp hl⟩
  | @last line hne hno =>
    have hmem := List.getLast_mem hne
    have hend : line.getLast hne = '\n' := h _ (by rw [hl, List.getLast?_eq_some_getLast hne]; rfl)
    rw [hend] at hmem
    exact absurd hmem hno
  | @cons line rest _ hno _ ih =>
    have hrest : Whole (String.ofList rest) := by
      intro c hc
      rw [String.toList_ofList] at hc
      refine h c ?_
      rw [hl, List.getLast?_append, List.getLast?_cons, Option.mem_def.mp hc]
      rfl
    obtain ⟨lines, hlines, hjoin⟩ := ih hrest String.toList_ofList
    refine ⟨String.ofList line :: lines, List.forall_mem_cons.mpr ⟨?_, hlines⟩, ?_⟩
    · rwa [String.toList_ofList]
    · rw [unlines_cons, ← hjoin, ← String.toList_inj, hl]
      simp

end StackMachine.Text
