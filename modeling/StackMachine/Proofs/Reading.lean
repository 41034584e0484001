import StackMachine.Proofs.Console
import StackMachine.Proofs.Text

/-!
# Reading a stream

The input port holds the lines that it has not looked at and the tokens that are left of the line
in hand. Reads deliver what these hold, one result each, in order.

* `Holds`: the results that a stream holds, line by line;
* `unread`: the tokens, and the lines that are no text, that a port has still to come to;
  `read_of_unread_cons` is one read, `unread_ofBytes` the start of a text;
* `remaining`: the results that they are read as; `nthRead_eq` is any number of reads;
* `reads_more`: reads that find a result do not depend on lines behind it;
* `reads_deliver_every_token`: the three together, from the start of a stream.
-/
namespace StackMachine.Input

open Text

/-! ## The results of a stream -/

/-- What a token is read as: its word, or a fault that shows it. -/
def tokenResult (token : List Char) : Except Fault Word :=
  match integer? token with
  | some w => .ok w
  | none => .error (.invalidInput (String.ofList token))

/-- The results that a line holds: one fault if its bytes are those of no text, and otherwise one
result for each run of characters that are not blank. -/
inductive LineHolds : List UInt8 → List (Except Fault Word) → Prop
  | undecodable {line : List UInt8} (h : ∀ text, line ≠ utf8 text) :
    LineHolds line [.error .undecodableInput]
  | text {text : List Char} {runs : List (List Char)} (h : Runs text runs) :
    LineHolds (utf8 text) (runs.map tokenResult)

/-- The results that some lines hold, in order. -/
inductive LinesHold : List (List UInt8) → List (Except Fault Word) → Prop
  | nil : LinesHold [] []
  | cons {line : List UInt8} {lines : List (List UInt8)} {here later : List (Except Fault Word)}
    (h : LineHolds line here) (hlater : LinesHold lines later) :
    LinesHold (line :: lines) (here ++ later)

/-- The results that a stream holds: those of its lines, which end after each line feed. -/
def Holds (bytes : List UInt8) (results : List (Except Fault Word)) : Prop :=
  ∃ lines, Lines newline bytes lines ∧ LinesHold lines results

/-! ## What is computed of a line -/

/-- The results of a line. -/
def lineResults (line : List UInt8) : List (Except Fault Word) :=
  match decodeLine? line with
  | none => [.error .undecodableInput]
  | some text => (tokens text).map tokenResult

/-- What a read takes from the stream: a token, or a line whose bytes are those of no text. -/
inductive Entry where
  | token (text : List Char)
  | undecodable
  deriving DecidableEq, Repr

/-- What an entry is read as. -/
def Entry.result : Entry → Except Fault Word
  | token text => tokenResult text
  | undecodable => .error .undecodableInput

/-- The entries of a line. -/
def lineEntries (line : List UInt8) : List Entry :=
  match decodeLine? line with
  | none => [.undecodable]
  | some text => (tokens text).map .token

theorem lineEntries_utf8 (text : List Char) :
    lineEntries (utf8 text) = (tokens text).map .token := by
  unfold lineEntries
  rw [decodeLine?_eq_some_iff.mpr rfl]

theorem lineResults_eq (line : List UInt8) :
    lineResults line = (lineEntries line).map Entry.result := by
  unfold lineResults lineEntries
  cases decodeLine? line with
  | none => rfl
  | some text =>
    dsimp only
    rw [List.map_map]
    rfl

theorem lineResults_utf8 (text : List Char) :
    lineResults (utf8 text) = (tokens text).map tokenResult := by
  rw [lineResults_eq, lineEntries_utf8, List.map_map]
  rfl

theorem lineHolds_iff {line : List UInt8} {results : List (Except Fault Word)} :
    LineHolds line results ↔ results = lineResults line := by
  constructor
  · intro h
    cases h with
    | undecodable h =>
      unfold lineResults
      cases hd : decodeLine? line with
      | none => rfl
      | some text => exact absurd (decodeLine?_eq_some_iff.mp hd) (h text)
    | text h => rw [lineResults_utf8, runs_iff.mp h]
  · rintro rfl
    cases hd : decodeLine? line with
    | none =>
      unfold lineResults
      rw [hd]
      refine .undecodable fun text htext => ?_
      rw [decodeLine?_eq_some_iff.mpr htext] at hd
      cases hd
    | some text =>
      rw [decodeLine?_eq_some_iff.mp hd, lineResults_utf8]
      exact .text (runs_iff.mpr rfl)

theorem linesHold_iff {lines : List (List UInt8)} {results : List (Except Fault Word)} :
    LinesHold lines results ↔ results = lines.flatMap lineResults := by
  constructor
  · intro h
    induction h with
    | nil => rfl
    | cons h _ ih => rw [lineHolds_iff.mp h, ih, List.flatMap_cons]
  · rintro rfl
    induction lines with
    | nil => exact .nil
    | cons line lines ih => exact .cons (lineHolds_iff.mpr rfl) ih

theorem holds_iff {bytes : List UInt8} {results : List (Except Fault Word)} :
    Holds bytes results ↔ results = (splitLines bytes).flatMap lineResults := by
  unfold Holds
  constructor
  · rintro ⟨lines, hlines, h⟩
    rw [← lines_iff.mp hlines, linesHold_iff.mp h]
  · exact fun h => ⟨_, lines_iff.mpr rfl, linesHold_iff.mpr h⟩

/-- The entries in the lines of a text are its tokens. -/
theorem entries_utf8 (text : List Char) :
    (splitLines (utf8 text)).flatMap lineEntries = (tokens text).map .token := by
  obtain ⟨lines, hlines⟩ := exists_lines '\n' text
  rw [← lines_iff.mp hlines.utf8, hlines.tokens_eq, List.map_flatMap, List.flatMap_map]
  simp only [lineEntries_utf8]

/-- So they hold the results of its tokens. -/
theorem holds_utf8 (text : List Char) : Holds (utf8 text) ((tokens text).map tokenResult) := by
  refine holds_iff.mpr ?_
  rw [funext lineResults_eq, ← List.map_flatMap, entries_utf8, List.map_map]
  rfl

/-! ## Reads -/

/-- A read that ended with a result, and the port that it left. -/
def ended : Except Fault Word → Input → EStateM.Result Fault Input Word
  | .ok w, input => .ok w input
  | .error f, input => .error f input

/-- The result of a read. -/
def resultOf : EStateM.Result Fault Input Word → Except Fault Word
  | .ok w _ => .ok w
  | .error f _ => .error f

/-- The port after a read. -/
def portOf : EStateM.Result Fault Input Word → Input
  | .ok _ input => input
  | .error _ input => input

@[simp] theorem resultOf_ended (result : Except Fault Word) (input : Input) :
    resultOf (ended result input) = result := by
  cases result <;> rfl

@[simp] theorem portOf_ended (result : Except Fault Word) (input : Input) :
    portOf (ended result input) = input := by
  cases result <;> rfl

/-- The port after `n` reads. -/
def afterReads : Nat → Input → Input
  | 0, input => input
  | n + 1, input => afterReads n (portOf (read input))

/-- The result of read number `n`; the first read is number zero. -/
def nthRead (input : Input) (n : Nat) : Except Fault Word := resultOf (read (afterReads n input))

/-- The entries that a port has still to come to. -/
def unread (input : Input) : List Entry :=
  input.pending.map .token ++ input.lines.flatMap lineEntries

theorem unread_ofBytes {text : List Char} {runs : List (List Char)} (h : Runs text runs) :
    (ofBytes (utf8 text)).unread = runs.map .token := by
  rw [runs_iff.mp h]
  exact entries_utf8 text

/-- The results that a port has still to deliver. -/
def remaining (input : Input) : List (Except Fault Word) :=
  input.pending.map tokenResult ++ input.lines.flatMap lineResults

theorem remaining_eq (input : Input) : remaining input = input.unread.map Entry.result := by
  unfold remaining unread
  rw [List.map_append, List.map_map, List.map_flatMap, funext lineResults_eq]
  rfl

theorem remaining_ofBytes {bytes : List UInt8} {results : List (Except Fault Word)}
    (h : Holds bytes results) : remaining (.ofBytes bytes) = results := by
  rw [holds_iff.mp h]
  rfl

/-- The port with more lines behind those that wait. -/
def more (input : Input) (behind : List (List UInt8)) : Input :=
  { input with lines := input.lines ++ behind }

@[simp] theorem more_nil (input : Input) : input.more [] = input := by
  unfold more
  rw [List.append_nil]

theorem read_of_token {before after : Input} {token : List Char}
    (h : nextToken before = .ok token after) : read before = ended (tokenResult token) after := by
  rw [read_apply, h]
  unfold tokenResult
  dsimp only
  cases integer? token <;> rfl

section
variable {line : List UInt8} {text : List Char}

theorem read_undecodable (hd : decodeLine? line = none) (rest : List (List UInt8)) :
    read ⟨line :: rest, []⟩ = .error .undecodableInput ⟨rest, []⟩ := by
  rw [read_apply]
  unfold nextToken firstToken
  simp only [hd]

theorem read_token (hd : decodeLine? line = some text) {token : List Char}
    {others : List (List Char)} (ht : tokens text = token :: others) (rest : List (List UInt8)) :
    read ⟨line :: rest, []⟩ = ended (tokenResult token) ⟨rest, others⟩ := by
  apply read_of_token
  unfold nextToken firstToken
  simp only [hd, ht]

/-- A line without a token is passed over. -/
theorem read_blank (hd : decodeLine? line = some text) (ht : tokens text = [])
    (rest : List (List UInt8)) : read ⟨line :: rest, []⟩ = read ⟨rest, []⟩ := by
  have hnext : nextToken ⟨line :: rest, []⟩ = nextToken ⟨rest, []⟩ := by
    unfold nextToken
    dsimp only
    rw [firstToken]
    simp only [hd, ht]
  rw [read_apply, read_apply, hnext]

end

/-- A read delivers the first of the unread entries and leaves the others. It has not looked at
lines behind. -/
theorem read_of_unread_cons {input : Input} {entry : Entry} {entries : List Entry}
    (h : input.unread = entry :: entries) :
    ∃ after : Input, after.unread = entries ∧
      ∀ behind, read (input.more behind) = ended entry.result (after.more behind) := by
  obtain ⟨lines, pending⟩ := input
  unfold unread at h
  cases pending with
  | cons token others =>
    obtain ⟨rfl, rfl⟩ := List.cons.inj h
    exact ⟨⟨lines, others⟩, rfl, fun _ => read_of_token rfl⟩
  | nil =>
    -- a line that holds no token is passed over
    induction lines with
    | nil => cases h
    | cons line lines ih =>
      simp only [List.map_nil, List.nil_append, List.flatMap_cons] at h
      cases hd : decodeLine? line with
      | none =>
        simp only [lineEntries, hd] at h
        obtain ⟨rfl, rfl⟩ := List.cons.inj h
        exact ⟨⟨lines, []⟩, rfl, fun behind => read_undecodable hd _⟩
      | some text =>
        simp only [lineEntries, hd] at h
        cases ht : tokens text with
        | cons token others =>
          rw [ht] at h
          obtain ⟨rfl, rfl⟩ := List.cons.inj h
          exact ⟨⟨lines, others⟩, rfl, fun behind => read_token hd ht _⟩
        | nil =>
          rw [ht] at h
          obtain ⟨after, hafter, hread⟩ := ih h
          exact ⟨after, hafter, fun behind => (read_blank hd ht _).trans (hread behind)⟩

theorem read_of_unread_nil {input : Input} (h : input.unread = []) :
    ∃ after : Input, after.unread = [] ∧ read input = .error .inputExhausted after := by
  obtain ⟨lines, pending⟩ := input
  unfold unread at h
  cases pending with
  | cons token others => cases h
  | nil =>
    induction lines with
    | nil => exact ⟨⟨[], []⟩, rfl, rfl⟩
    | cons line lines ih =>
      simp only [List.map_nil, List.nil_append, List.flatMap_cons] at h
      obtain ⟨hline, hlines⟩ := List.append_eq_nil_iff.mp h
      unfold lineEntries at hline
      cases hd : decodeLine? line with
      | none => rw [hd] at hline; cases hline
      | some text =>
        rw [hd] at hline
        obtain ⟨after, hafter, hread⟩ := ih hlines
        exact ⟨after, hafter, (read_blank hd (List.map_eq_nil_iff.mp hline) _).trans hread⟩

/-- So it delivers the first of the remaining results. -/
theorem read_of_remaining_cons {input : Input} {result : Except Fault Word}
    {results : List (Except Fault Word)} (h : remaining input = result :: results) :
    ∃ after, remaining after = results ∧
      ∀ behind, read (input.more behind) = ended result (after.more behind) := by
  rw [remaining_eq] at h
  obtain ⟨entry, entries, hunread, rfl, rfl⟩ := List.map_eq_cons_iff.mp h
  obtain ⟨after, rfl, hread⟩ := read_of_unread_cons hunread
  exact ⟨after, after.remaining_eq, hread⟩

theorem read_of_remaining_nil {input : Input} (h : remaining input = []) :
    ∃ after, remaining after = [] ∧ read input = .error .inputExhausted after := by
  rw [remaining_eq] at h
  obtain ⟨after, hafter, hread⟩ := read_of_unread_nil (List.map_eq_nil_iff.mp h)
  refine ⟨after, ?_, hread⟩
  rw [remaining_eq, hafter, List.map_nil]

theorem nthRead_zero (input : Input) : nthRead input 0 = resultOf (read input) := rfl

theorem nthRead_succ (input : Input) (n : Nat) :
    nthRead input (n + 1) = nthRead (portOf (read input)) n := rfl

/-- Successive reads deliver the remaining results in order, and then find the input exhausted. -/
theorem nthRead_eq (input : Input) (n : Nat) :
    nthRead input n = (remaining input)[n]?.getD (.error .inputExhausted) := by
  induction n generalizing input with
  | zero =>
    rw [nthRead_zero]
    cases h : remaining input with
    | nil =>
      obtain ⟨after, -, hread⟩ := read_of_remaining_nil h
      rw [hread]
      rfl
    | cons result results =>
      obtain ⟨after, -, hread⟩ := read_of_remaining_cons h
      rw [← input.more_nil, hread, resultOf_ended]
      rfl
  | succ n ih =>
    rw [nthRead_succ, ih]
    cases h : remaining input with
    | nil =>
      obtain ⟨after, hafter, hread⟩ := read_of_remaining_nil h
      rw [hread]
      show (remaining after)[n]?.getD _ = _
      rw [hafter]
      rfl
    | cons result results =>
      obtain ⟨after, hafter, hread⟩ := read_of_remaining_cons h
      rw [← input.more_nil, hread, portOf_ended, more_nil, hafter]
      rfl

/-- Reads that find a result are not affected by the lines behind it, and leave them. -/
theorem reads_more (input : Input) (behind : List (List UInt8)) (n : Nat)
    (hn : n < (remaining input).length) :
    nthRead (input.more behind) n = nthRead input n ∧
      behind <:+ (afterReads (n + 1) (input.more behind)).lines := by
  cases h : remaining input with
  | nil =>
    rw [h] at hn
    exact absurd hn (Nat.not_lt_zero n)
  | cons result results =>
    obtain ⟨after, hafter, hread⟩ := read_of_remaining_cons h
    have hmore : portOf (read (input.more behind)) = after.more behind := by
      rw [hread, portOf_ended]
    have hinput := hread []
    rw [more_nil, more_nil] at hinput
    cases n with
    | zero =>
      refine ⟨?_, ?_⟩
      · rw [nthRead_zero, nthRead_zero, hread, hinput, resultOf_ended, resultOf_ended]
      · show behind <:+ (portOf (read (input.more behind))).lines
        rw [hmore]
        exact List.suffix_append _ _
    | succ n =>
      have hlt : n < (remaining after).length := by
        rw [h, List.length_cons] at hn
        rw [hafter]
        omega
      obtain ⟨hresult, hlines⟩ := reads_more after behind n hlt
      refine ⟨?_, ?_⟩
      · rw [nthRead_succ, nthRead_succ, hmore, hinput, portOf_ended, hresult]
      · show behind <:+ (afterReads (n + 1) (portOf (read (input.more behind)))).lines
        rw [hmore]
        exact hlines

/-! ## From the start of a stream -/

/-- **Reading.** Every stream holds some results, line by line: a fault for a line whose bytes are
no text, and otherwise the result of each run of characters that are not blank. Successive reads
deliver them in order, and find the input exhausted ever after. If the whole stream is a text, its
runs give the same results. Reads that the first lines can satisfy deliver what they would if the
stream ended there, and leave the lines behind untouched. -/
theorem reads_deliver_every_token (bytes : List UInt8) :
    (∃ results, Holds bytes results) ∧
    (∀ results, Holds bytes results →
      ∀ n, nthRead (.ofBytes bytes) n = results[n]?.getD (.error .inputExhausted)) ∧
    (∀ text runs, bytes = utf8 text → Runs text runs →
      ∀ n, nthRead (.ofBytes bytes) n =
        (runs.map tokenResult)[n]?.getD (.error .inputExhausted)) ∧
    ∀ first behind results, Lines newline bytes (first ++ behind) → LinesHold first results →
      ∀ n < results.length,
        nthRead (.ofBytes bytes) n = nthRead (.ofBytes first.flatten) n ∧
        behind <:+ (afterReads (n + 1) (.ofBytes bytes)).lines := by
  refine ⟨⟨_, holds_iff.mpr rfl⟩, fun results h n => ?_, ?_, ?_⟩
  · rw [nthRead_eq, remaining_ofBytes h]
  · rintro text runs rfl hruns n
    rw [nthRead_eq, remaining_ofBytes (holds_utf8 text), runs_iff.mp hruns]
  · intro first behind results hlines h n hn
    have hfirst : Holds first.flatten results := ⟨first, hlines.take, h⟩
    have hmore : ofBytes bytes = (ofBytes first.flatten).more behind := by
      unfold ofBytes more
      rw [← lines_iff.mp hlines, ← lines_iff.mp hlines.take]
    rw [hmore]
    exact reads_more _ behind n (by rwa [remaining_ofBytes hfirst])

/-- Two integers on a line, a blank line, a line that is no text, and a word on a line without an
end. -/
def mixed : List UInt8 := utf8 "  12 -3\n\n".toList ++ [0xFF, 0x0A] ++ utf8 "x".toList

theorem reads_deliver_every_token_mixed :
    Holds mixed [.ok 12, .ok (-3), .error .undecodableInput, .error (.invalidInput "x")] ∧
      nthRead (.ofBytes mixed) 1 = .ok (-3) ∧
      nthRead (.ofBytes mixed) 3 = .error (.invalidInput "x") ∧
      nthRead (.ofBytes mixed) 9 = .error .inputExhausted ∧
      [[0xFF, 0x0A], [0x78]] <:+ (afterReads 2 (.ofBytes mixed)).lines := by
  have hholds :
      Holds mixed [.ok 12, .ok (-3), .error .undecodableInput, .error (.invalidInput "x")] :=
    holds_iff.mpr rfl
  obtain ⟨-, hreads, -, hfirst⟩ := reads_deliver_every_token mixed
  refine ⟨hholds, hreads _ hholds 1, hreads _ hholds 3, hreads _ hholds 9, ?_⟩
  exact (hfirst [utf8 "  12 -3\n".toList, [0x0A]] [[0xFF, 0x0A], [0x78]] [.ok 12, .ok (-3)]
    (lines_iff.mpr (by decide)) (linesHold_iff.mpr rfl) 1 (by decide)).2

end StackMachine.Input
