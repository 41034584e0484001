import StackMachine.Command
import StackMachine.Proofs.Messages
import StackMachine.Proofs.Program
import StackMachine.Proofs.Runs
import StackMachine.Proofs.Tracing

/-!
# Outcomes

What the exit status, standard output and standard error of the command say about how it ended.

* `Ended`: the command ran a program, and how the run ended;
* `runWith?_cases`: the three ways that the command ends;
* `StatusTells`, `LinesTell`: what the status and the lines on standard error say;
* `outcome_tells`: all of it. No status is that of two ways to end, because the opcodes fill the
  numbers below 36 and no fault has a text that ends in a full stop.
-/
namespace StackMachine

open Text

namespace Command

/-- A file that was read fails to load for what is in it. -/
theorem load_unreadable {file : Except ReadFailure (List UInt8)} {failure : ReadFailure}
    (h : load file = .error (.unreadable failure)) : file = .error failure := by
  unfold load at h
  cases file with
  | error f =>
    cases h
    rfl
  | ok bytes =>
    dsimp only at h
    rw [Machine.load_apply] at h
    split at h
    · unfold Machine.ofProgram at h
      split at h <;> cases h
    · rename_i e hparse
      exact absurd (Except.error.inj h) (Program.parse_error hparse failure)

theorem running_of_load {file : Except ReadFailure (List UInt8)} {m : Machine}
    (h : load file = .ok m) : m.running = true := by
  unfold load at h
  cases file with
  | error f => cases h
  | ok bytes =>
    dsimp only at h
    rw [Machine.load_apply] at h
    split at h
    · obtain ⟨-, rfl⟩ := Machine.ofProgram_eq_ok_iff.mp h
      rfl
    · cases h

/-! ## Ways to end -/

section
variable (read : String → Except ReadFailure (List UInt8)) (args : List String)
  (input : List UInt8)

/-- There is one argument, and no program can be loaded from there. -/
def Unloadable : Prop := ∃ path e, args = [path] ∧ load (read path) = .error e

/-- There is one argument, a program can be loaded from there, and its run ended with the given
fault or with a halt, after steps that began from the given sessions, latest first. -/
def Ended (past : List Session) (f? : Option Fault) : Prop :=
  ∃ path m n, args = [path] ∧ load (read path) = .ok m ∧
    Session.Ends ⟨m, .ofBytes input none⟩ n f? ∧
    past = Session.visited (n + 1) ⟨m, .ofBytes input none⟩

/-- A program ran, and its run ended with the given fault or with a halt. -/
def Stopped (f? : Option Fault) : Prop := ∃ past, Ended read args input past f?

end

variable {traced : Bool} {fuel : Nat} {read : String → Except ReadFailure (List UInt8)}
  {args : List String} {input : List UInt8} {o : Outcome} {past : List Session}
  {f? : Option Fault}

theorem Ended.length_eq (h : Ended read args input past f?) : args.length = 1 := by
  obtain ⟨path, m, n, rfl, -⟩ := h
  rfl

theorem Ended.not_unloadable (h : Ended read args input past f?) : ¬ Unloadable read args := by
  obtain ⟨path, m, n, rfl, hload, -⟩ := h
  rintro ⟨path', e, hpath, herror⟩
  cases hpath
  rw [hload] at herror
  cases herror

theorem Unloadable.length_eq (h : Unloadable read args) : args.length = 1 := by
  obtain ⟨path, e, rfl, -⟩ := h
  rfl

/-- The run of the command has one end. -/
theorem Ended.unique {past' : List Session} {g? : Option Fault}
    (h : Ended read args input past f?) (h' : Ended read args input past' g?) :
    past = past' ∧ f? = g? := by
  obtain ⟨path, m, n, rfl, hload, hends, rfl⟩ := h
  obtain ⟨path', m', n', hpath, hload', hends', rfl⟩ := h'
  cases hpath
  obtain rfl : m = m' := Except.ok.inj (hload.symm.trans hload')
  obtain ⟨rfl, hf⟩ := hends.unique hends'
  exact ⟨rfl, hf⟩

theorem Ended.stopped_iff {g? : Option Fault} (h : Ended read args input past f?) :
    Stopped read args input g? ↔ g? = f? := by
  constructor
  · rintro ⟨past', h'⟩
    exact (h'.unique h).2
  · rintro rfl
    exact ⟨past, h⟩

/-- What a run leaves, traced or not. -/
theorem ending?_eq_some {s : Session} {stdout log : String}
    (h : ending? traced fuel s = some (stdout, log, f?)) :
    ∃ r, s.run? fuel = some r ∧ stdout = (Session.after r).console.output.written ∧
      f? = Session.faultOf? r ∧ Whole log := by
  unfold ending? at h
  split at h
  · split at h
    · cases h
    · cases h
      obtain ⟨hrun, hlog⟩ := Traced.run?_start ‹_›
      exact ⟨_, hrun, rfl, rfl, hlog⟩
    · cases h
      obtain ⟨hrun, hlog⟩ := Traced.run?_start ‹_›
      exact ⟨_, hrun, rfl, rfl, hlog⟩
  · split at h
    · cases h
    · cases h
      exact ⟨_, ‹_›, rfl, rfl, nofun⟩
    · cases h
      exact ⟨_, ‹_›, rfl, rfl, nofun⟩

/-- The arguments are wrong, the program cannot be loaded, or it ran. -/
theorem runWith?_cases (h : runWith? traced fuel read args input = some o) :
    (args.length ≠ 1 ∧ ∃ e, o = ⟨2, "", banner traced ++ usageText e⟩) ∨
    (∃ path e, args = [path] ∧ load (read path) = .error e ∧
      o = ⟨3, "", banner traced ++ loadText path e⟩) ∨
    ∃ past f? log, Ended read args input past f? ∧ Whole log ∧
      o = ⟨closingStatus f?, Output.text (Session.printed past),
        banner traced ++ openingText ++ log ++ closingText f?⟩ := by
  unfold runWith? at h
  split at h
  · rename_i e hpath
    refine .inl ⟨?_, e, (Option.some.inj h).symm⟩
    intro hlen
    obtain ⟨path, rfl⟩ := List.length_eq_one_iff.mp hlen
    cases hpath
  · rename_i path hpath
    obtain rfl : args = [path] := by
      unfold programPath at hpath
      split at hpath <;> cases hpath
      rfl
    right
    split at h
    · rename_i e hload
      exact .inl ⟨path, e, rfl, hload, (Option.some.inj h).symm⟩
    · rename_i m hload
      split at h
      · cases h
      · rename_i stdout log f? hending
        obtain ⟨r, hrun, rfl, rfl, hlog⟩ := ending?_eq_some hending
        obtain ⟨n, f?, hends, rfl⟩ := Session.run?_eq_some fuel (running_of_load hload) hrun
        have hcompletes := Session.Completes.ended (running_of_load hload) hends
        rw [hcompletes.output_eq rfl, Session.faultOf?_ended] at h
        exact .inr ⟨_, f?, log, ⟨path, m, n, rfl, hload, hends, rfl⟩, hlog,
          (Option.some.inj h).symm⟩

/-! ## The exit status -/

/-- A run that stops at an invalid opcode has found a number of 36 or more. -/
theorem Ended.le_code {c : UInt16} (h : Ended read args input past (some (.invalidOpcode c))) :
    36 ≤ c.toNat := by
  obtain ⟨path, m, n, -, -, hends, -⟩ := h
  exact UInt16.lt_iff_toNat_lt.mp (Session.maxCode_lt_of_fault? hends.fault?_eq)

theorem closingStatus_invalidOpcode {c : UInt16} (h : 36 ≤ c.toNat) :
    closingStatus (some (.invalidOpcode c)) = min c.toNat 255 := by
  show min (max c.toNat 1) 255 = _
  rw [Nat.max_eq_left (by omega)]

theorem closingStatus_of_ne {f : Fault} (h : ∀ c, f ≠ .invalidOpcode c) :
    closingStatus (some f) = 1 := by
  cases f with
  | invalidOpcode c => exact absurd rfl (h c)
  | _ => rfl

/-- What the exit status says of how the command ended. -/
structure StatusTells (read : String → Except ReadFailure (List UInt8)) (args : List String)
    (input : List UInt8) (status : Nat) : Prop where
  ways : args.length ≠ 1 ∨ Unloadable read args ∨ ∃ f?, Stopped read args input f?
  usage : status = 2 ↔ args.length ≠ 1
  unloadable : status = 3 ↔ Unloadable read args
  halted : status = 0 ↔ Stopped read args input none
  /-- A number that no opcode has is the status itself, as far as a status can hold it. -/
  invalid : ∀ k, 36 ≤ k →
    (status = k ↔ ∃ c, Stopped read args input (some (.invalidOpcode c)) ∧ min c.toNat 255 = k)
  clamped : ∀ c, Stopped read args input (some (.invalidOpcode c)) → 36 ≤ status ∧ status ≤ 255
  faulted : status = 1 ↔
    ∃ f, Stopped read args input (some f) ∧ ∀ c, f ≠ .invalidOpcode c

/-- The status of a command that runs no program is 2 or 3. -/
theorem statusTells_of_not_stopped {status : Nat} (hstatus : status = 2 ∨ status = 3)
    (husage : status = 2 ↔ args.length ≠ 1) (hload : status = 3 ↔ Unloadable read args)
    (hrun : ∀ f?, ¬ Stopped read args input f?) : StatusTells read args input status where
  ways := hstatus.imp husage.mp fun h => .inl (hload.mp h)
  usage := husage
  unloadable := hload
  halted := by simp [hrun]; omega
  invalid k hk := by simp [hrun]; omega
  clamped c h := absurd h (hrun _)
  faulted := by simp [hrun]; omega

theorem statusTells_of_ended (h : Ended read args input past f?) :
    StatusTells read args input (closingStatus f?) := by
  have hlen := h.length_eq
  have hload := h.not_unloadable
  have hstopped (g? : Option Fault) : Stopped read args input g? ↔ g? = f? := h.stopped_iff
  have hways : args.length ≠ 1 ∨ Unloadable read args ∨ ∃ f?, Stopped read args input f? :=
    .inr (.inr ⟨f?, past, h⟩)
  cases f? with
  | none =>
    exact {
      ways := hways
      usage := by simp [closingStatus, statusSuccess, hlen]
      unloadable := by simp [closingStatus, statusSuccess, hload]
      halted := by simp [closingStatus, statusSuccess, hstopped]
      invalid := fun k hk => by simp [closingStatus, statusSuccess, hstopped]; omega
      clamped := by simp [hstopped]
      faulted := by simp [closingStatus, statusSuccess, hstopped] }
  | some f =>
    by_cases hf : ∃ c, f = .invalidOpcode c
    · obtain ⟨c, rfl⟩ := hf
      have hle := h.le_code
      rw [closingStatus_invalidOpcode hle]
      exact {
        ways := hways
        usage := by simp [hlen]; omega
        unloadable := by simp [hload]; omega
        halted := by simp [hstopped]; omega
        invalid := fun k _ => by simp [hstopped]
        clamped := by simp [hstopped]; omega
        faulted := by simp [hstopped]; omega }
    · have hne : ∀ c, f ≠ .invalidOpcode c := fun c e => hf ⟨c, e⟩
      rw [closingStatus_of_ne hne]
      exact {
        ways := hways
        usage := by simp [hlen]
        unloadable := by simp [hload]
        halted := by simp [hstopped]
        invalid := fun k hk => by simp [hstopped, Ne.symm (hne _)]; omega
        clamped := by simp [hstopped, Ne.symm (hne _)]
        faulted := by simp [hstopped, hne] }

theorem statusTells (h : runWith? traced fuel read args input = some o) :
    StatusTells read args input o.status := by
  rcases runWith?_cases h with ⟨hlen, e, rfl⟩ | ⟨path, e, rfl, hload, rfl⟩ |
    ⟨past, f?, log, hended, -, rfl⟩
  · have hload : ¬ Unloadable read args := fun hu => hlen hu.length_eq
    refine statusTells_of_not_stopped (.inl rfl) (by simp [hlen]) (by simp [hload]) ?_
    rintro f? ⟨past, hended⟩
    exact hlen hended.length_eq
  · have hu : Unloadable read [path] := ⟨path, e, rfl, hload⟩
    refine statusTells_of_not_stopped (.inr rfl) (by simp) (by simp [hu]) ?_
    rintro f? ⟨past, hended⟩
    exact hended.not_unloadable hu
  · exact statusTells_of_ended hended

/-! ## The lines on standard error -/

/-- The line of the banner, if there is one. -/
def bannerLines (traced : Bool) : List String :=
  if traced then ["Computation Tracing ENABLED"] else []

theorem unlines_bannerLines (traced : Bool) : unlines (bannerLines traced) = banner traced := by
  cases traced <;> rfl

theorem oneLine_bannerLines (traced : Bool) : ∀ line ∈ bannerLines traced, '\n' ∉ line.toList := by
  cases traced <;> decide

theorem not_mem_bannerLines (traced : Bool) : "Beginning execution..." ∉ bannerLines traced := by
  cases traced <;> decide

/-- What the lines on standard error say of how the command ended. -/
structure LinesTell (status : Nat) (stderr : String) (lines : List String) : Prop where
  stderr_eq : stderr = unlines lines
  oneLine : ∀ line ∈ lines, '\n' ∉ line.toList
  began : "Beginning execution..." ∈ lines ↔ status ≠ 2 ∧ status ≠ 3
  done : lines.getLast? = some "Done." ↔ status = 0

theorem linesTell_of_usage (traced : Bool) (e : UsageError) :
    LinesTell 2 (banner traced ++ usageText e) (bannerLines traced ++ [e.message,
      "Usage: svm <program.bin>",
      "Status lines are written to stderr; stdout carries only what the program PRINTs."]) where
  stderr_eq := by
    rw [unlines_append, unlines_bannerLines]
    cases e <;> rfl
  oneLine := by
    refine List.forall_mem_append.mpr ⟨oneLine_bannerLines traced, ?_⟩
    cases e <;> decide
  began := by
    rw [List.mem_append, or_iff_right (not_mem_bannerLines traced)]
    cases e <;> decide
  done := by simp

theorem linesTell_of_unloadable (traced : Bool) {path : String} {e : LoadError}
    (hpath : '\n' ∉ path.toList) (hmessage : '\n' ∉ e.message.toList) :
    LinesTell 3 (banner traced ++ loadText path e)
      (bannerLines traced ++ [path ++ ": " ++ e.message]) where
  stderr_eq := by
    rw [unlines_append, unlines_bannerLines, unlines_cons, unlines_nil, String.append_empty]
    rfl
  oneLine := by
    refine List.forall_mem_append.mpr ⟨oneLine_bannerLines traced, ?_⟩
    simp [hpath, hmessage]
  began := by
    have hne := (e.endsPlain_message.append (path ++ ": ")).ne (b := "Beginning execution...")
      (by decide)
    rw [List.mem_append, or_iff_right (not_mem_bannerLines traced), List.mem_singleton]
    simp [hne.symm]
  done := by
    have hne := (e.endsPlain_message.append (path ++ ": ")).ne (b := "Done.") (by decide)
    simp [hne]

/-- The last of some lines that end plain is not the one that tells of a halt. -/
theorem ne_done_of_endsPlain {text : String} (h : EndsPlain text) {lines : List String}
    (hlines : text ++ "\n" = unlines lines) :
    ∃ line, lines.getLast? = some line ∧ line ≠ "Done." := by
  cases hlast : lines.getLast? with
  | none =>
    rw [List.getLast?_eq_none_iff.mp hlast] at hlines
    simp at hlines
  | some line =>
    refine ⟨line, rfl, ?_⟩
    rintro rfl
    obtain ⟨first, rfl⟩ := List.getLast?_eq_some_iff.mp hlast
    rw [unlines_append, unlines_cons, unlines_nil, String.append_empty, ← String.append_assoc,
      String.append_left_inj] at hlines
    rw [hlines, endsPlain_append (by decide)] at h
    exact absurd h (by decide)

/-- The lines that tell how a run ended, and the last of them. -/
theorem exists_closingLines (f? : Option Fault) :
    ∃ lines line, (∀ line ∈ lines, '\n' ∉ line.toList) ∧ closingText f? = unlines lines ∧
      lines.getLast? = some line ∧ (line = "Done." ↔ f? = none) := by
  cases f? with
  | none => exact ⟨["Done."], "Done.", by decide, rfl, rfl, by simp⟩
  | some f =>
    obtain ⟨lines, hone, hlines⟩ := exists_unlines (whole_line f.message)
    obtain ⟨line, hlast, hne⟩ := ne_done_of_endsPlain f.endsPlain_message hlines
    exact ⟨lines, line, hone, hlines, hlast, by simp [hne]⟩

theorem linesTell_of_ended (traced : Bool) {status : Nat} {log : String} (hlog : Whole log)
    (f? : Option Fault) (hran : status ≠ 2 ∧ status ≠ 3) (hhalted : status = 0 ↔ f? = none) :
    ∃ lines, LinesTell status (banner traced ++ openingText ++ log ++ closingText f?) lines := by
  obtain ⟨logLines, hlogOne, rfl⟩ := exists_unlines hlog
  obtain ⟨closing, line, hclosingOne, hclosing, hlast, hdone⟩ := exists_closingLines f?
  refine ⟨bannerLines traced ++ ["Beginning execution..."] ++ logLines ++ closing, ?_, ?_, ?_, ?_⟩
  · simp only [unlines_append, unlines_bannerLines, hclosing]
    rfl
  · simp only [List.forall_mem_append]
    exact ⟨⟨⟨oneLine_bannerLines traced, by decide⟩, hlogOne⟩, hclosingOne⟩
  · simp [hran]
  · rw [List.getLast?_append, hlast, Option.some_or, Option.some.injEq, hdone, hhalted]

theorem linesTell (h : runWith? traced fuel read args input = some o)
    (hpath : ∀ path ∈ args, '\n' ∉ path.toList)
    (hreason : ∀ path ∈ args, ∀ failure, read path = .error failure →
      '\n' ∉ failure.reason.toList) :
    ∃ lines, LinesTell o.status o.stderr lines := by
  rcases runWith?_cases h with ⟨-, e, rfl⟩ | ⟨path, e, rfl, hload, rfl⟩ |
    ⟨past, f?, log, hended, hlog, rfl⟩
  · exact ⟨_, linesTell_of_usage traced e⟩
  · have hmem : path ∈ [path] := List.mem_singleton_self path
    refine ⟨_, linesTell_of_unloadable traced (hpath path hmem) ?_⟩
    apply LoadError.newline_not_mem_message
    rintro failure rfl
    exact hreason path hmem failure (load_unreadable hload)
  · have htells := statusTells_of_ended hended
    refine linesTell_of_ended traced hlog f? ⟨?_, ?_⟩ (htells.halted.trans ?_)
    · rw [Ne, htells.usage, hended.length_eq]
      simp
    · rw [Ne, htells.unloadable]
      exact hended.not_unloadable
    · exact hended.stopped_iff.trans eq_comm

/-- The reasons of a folder are one line each. -/
theorem linesTell_of_folder {folder : Folder} (h : run? traced fuel folder args input = some o)
    (hpath : ∀ path ∈ args, '\n' ∉ path.toList) :
    ∃ lines, LinesTell o.status o.stderr lines :=
  linesTell h hpath fun _ _ failure hread =>
    ReadFailure.newline_not_mem_reason failure (Folder.read_error hread)

/-! ## All of it -/

/-- A command whose run ends has an outcome, given fuel. -/
theorem exists_outcome {path : String} {m : Machine} {n : Nat} (hload : load (read path) = .ok m)
    (hends : Session.Ends ⟨m, .ofBytes input none⟩ n f?) (hfuel : n < fuel) :
    ∃ o, runWith? traced fuel read [path] input = some o := by
  have hrun := hends.run?_eq (running_of_load hload) hfuel
  have hending : ∃ ending, ending? traced fuel ⟨m, .ofBytes input none⟩ = some ending := by
    unfold ending?
    split
    · have hforget := Traced.forget_run? fuel (.start ⟨m, .ofBytes input none⟩)
      rw [show (Traced.start ⟨m, .ofBytes input none⟩).session = ⟨m, .ofBytes input none⟩ from rfl,
        hrun] at hforget
      obtain ⟨r, hr, -⟩ := Option.map_eq_some_iff.mp hforget
      rw [hr]
      cases r <;> exact ⟨_, rfl⟩
    · rw [hrun]
      cases Session.ended n ⟨m, .ofBytes input none⟩ f? <;> exact ⟨_, rfl⟩
  obtain ⟨⟨stdout, log, g?⟩, hending⟩ := hending
  unfold runWith?
  rw [show programPath [path] = .ok path from rfl]
  dsimp only
  rw [hload]
  dsimp only
  rw [hending]
  exact ⟨_, rfl⟩

/-! ## A word that is printed, and a word that is no instruction -/

def printing : Program :=
  [Instruction.encode ⟨.push, 7⟩, Instruction.encode ⟨.print, 0⟩, Word.ofHalves 4000 0]

/-- The file of this program, and no other. -/
def printingFile (path : String) : Except ReadFailure (List UInt8) :=
  if path = "prog.bin" then .ok (Program.toBytes printing) else .error .notFound

/-- The session in which the program begins. -/
def printingStart : Session := ⟨.fresh {} printing, .ofBytes [] none⟩

theorem load_printingFile : load (printingFile "prog.bin") = .ok (.fresh {} printing) := by
  have hfile : printingFile "prog.bin" = .ok (Program.toBytes printing) := if_pos rfl
  rw [hfile]
  show Machine.load {} (Program.toBytes printing) = _
  rw [Machine.load_toBytes]
  exact Machine.ofProgram_eq_ok_iff.mpr ⟨by decide, rfl⟩

theorem fetch_printing {s : Session} (hcode : s.machine.code = printingStart.machine.code)
    {pc : Nat} (hpc : s.machine.pc = pc) (hlt : pc < 65536) :
    s.machine.code.fetch s.machine.pc = .ok (printing.getD pc 0) := by
  rw [hcode, hpc]
  exact (CodeMemory.fetch_ofProgram (by decide)).mpr ⟨hlt, rfl⟩

theorem instruction?_printingStart : printingStart.instruction? = some ⟨.push, 7⟩ :=
  Session.instruction?_eq_some_iff.mpr
    ⟨_, fetch_printing rfl rfl (by decide), Instruction.decode_encode _⟩

theorem pushed_seven : DataMemory.push (.empty 65536) 7 = .ok (.pushed (.empty 65536) 7) ∧
    (DataMemory.pushed (.empty 65536) 7).operand 0 = 7 := by
  have hsp : (DataMemory.empty 65536).sp ≤ (DataMemory.empty 65536).capacity :=
    Nat.le_of_eq (DataMemory.capacity_empty _).symm
  refine ⟨?_, ?_⟩
  · rw [DataMemory.push_eq (DataMemory.sound_empty (by decide)), if_pos (by decide)]
  · rw [DataMemory.operand, DataMemory.stack_pushed _ _ (by decide) hsp]
    rfl

theorem next_of_push {s : Session} {i : Instruction} {d : DataMemory}
    (hi : s.instruction? = some i) (hop : i.opcode = .push)
    (hd : s.machine.data.push i.literal = .ok d) :
    s.fault? = none ∧ s.next.machine.pc = s.machine.pc + 1 ∧ s.next.machine.data = d ∧
      s.next.console = s.console := by
  obtain ⟨w, -, hstep⟩ := Session.step_of_instruction? hi
  have hpush : Session.execute i (s.fetched w) = .ok () ((s.fetched w).withData d) := by
    unfold Session.execute
    rw [hop]
    dsimp only
    rw [Session.push_apply, show (s.fetched w).machine.data.push i.literal = .ok d from hd]
  unfold Session.fault? Session.next
  rw [hstep, hpush]
  exact ⟨rfl, rfl, rfl, rfl⟩

theorem next_printingStart :
    printingStart.fault? = none ∧ printingStart.next.machine.pc = 1 ∧
      printingStart.next.machine.data.operand 0 = 7 ∧
      printingStart.next.console.output = .empty none := by
  obtain ⟨hpush, hoperand⟩ := pushed_seven
  obtain ⟨hfault, hpc, hdata, hconsole⟩ := next_of_push instruction?_printingStart rfl hpush
  refine ⟨hfault, hpc, ?_, ?_⟩
  · rw [hdata, hoperand]
  · rw [hconsole]
    rfl

theorem print?_printingNext : printingStart.next.print? = some 7 := by
  obtain ⟨-, hpc, hoperand, -⟩ := next_printingStart
  refine Session.print?_eq_some_iff.mpr ⟨⟨⟨.print, 0⟩, ?_, rfl⟩, hoperand⟩
  exact Session.instruction?_eq_some_iff.mpr
    ⟨_, fetch_printing (Session.next_code _) hpc (by decide), Instruction.decode_encode _⟩

theorem next_printingNext : printingStart.next.fault? = none ∧
    printingStart.next.next.machine.pc = 2 := by
  obtain ⟨-, hpc, -, hout⟩ := next_printingStart
  obtain ⟨hfault, hnext, -⟩ := Session.next_of_print? print?_printingNext (by rw [hout]; rfl)
  exact ⟨hfault, hnext.trans (by rw [hpc])⟩

theorem fetch_printingLast :
    printingStart.next.next.machine.code.fetch printingStart.next.next.machine.pc =
      .ok (Word.ofHalves 4000 0) :=
  fetch_printing ((Session.next_code _).trans (Session.next_code _)) next_printingNext.2 (by decide)

theorem ends_printing : printingStart.Ends 2 (some (.invalidOpcode 4000)) := by
  refine Session.ends_succ_iff.mpr ⟨next_printingStart.1, ?_, Session.ends_succ_iff.mpr
    ⟨next_printingNext.1, ?_, Session.ends_of_fault? ?_⟩⟩
  · rintro ⟨n, hn⟩
    rw [instruction?_printingStart] at hn
    cases hn
  · rintro ⟨n, hn⟩
    obtain ⟨⟨i, hi, hop⟩, -⟩ := Session.print?_eq_some_iff.mp print?_printingNext
    rw [hi] at hn
    cases hn
    cases hop
  · unfold Session.fault?
    rw [Session.step_of_decode_error fetch_printingLast (f := .invalidOpcode 4000) rfl]
    rfl

theorem printed_printing : Session.printed (Session.visited 3 printingStart) = [7] := by
  have hfirst : printingStart.print? = none := by
    refine Session.print?_eq_none_iff.mpr fun i hi => ?_
    rw [instruction?_printingStart] at hi
    cases hi
    exact nofun
  have hlast : printingStart.next.next.print? = none := by
    have hno := Session.instruction?_of_decode_error fetch_printingLast
      (f := .invalidOpcode 4000) rfl
    exact Session.print?_eq_none_iff.mpr fun i hi => nomatch hno.symm.trans hi
  have hvisited (s : Session) : Session.visited 3 s = [s.next.next, s.next, s] := rfl
  rw [hvisited]
  simp [hfirst, print?_printingNext, hlast, Session.printed]

end Command

end StackMachine
