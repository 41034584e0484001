import StackMachine.Trace
import StackMachine.Proofs.Runs
import StackMachine.Proofs.Text

/-!
# Tracing

A traced run is a run with a log.

* `stepEntry`: what the log says of a step, by the session from which it begins;
* `run?_eq`: a traced run is the run, with the entries of its steps behind the log;
* `forget`: a traced result without its log; `forget_run?`: it is what the run yields that is not
  traced;
* `run?_start`: this, and that the log is a text of whole lines, for a run from its beginning;
* `log_tells_steps`: the log of a run from its beginning, step by step.
-/
namespace StackMachine.Traced

/-- An entry is written for the instruction, and one for the state after it unless it faults. -/
theorem step_apply (s : Session) (log : String) :
    step ⟨s, log⟩ = match Session.fetch s with
      | .error f t => .error f ⟨t, log⟩
      | .ok i t =>
        match Session.execute i t with
        | .error f u => .error f ⟨u, log ++ instructionEntry t.machine i⟩
        | .ok _ u => .ok () ⟨u, log ++ instructionEntry t.machine i ++ stateEntry u.machine⟩ :=
  rfl

/-! ## The log of a step -/

/-- What the log says of the step that begins from a session. It says nothing unless a word is
fetched that is an instruction. Then it gives the address of the word and the text of the
instruction, and if the step does not fault, the state after it. -/
def stepEntry (s : Session) : String :=
  match s.instruction? with
  | none => ""
  | some i =>
    (Address.code s.machine.pc).text ++ ": " ++ i.text ++ "\n" ++
      if s.fault? = none then s.next.machine.display ++ "\n" else ""

theorem stepEntry_of_instruction?_none {s : Session} (h : s.instruction? = none) :
    stepEntry s = "" := by
  unfold stepEntry
  rw [h]

theorem stepEntry_of_instruction? {s : Session} {i : Instruction} (h : s.instruction? = some i) :
    stepEntry s = (Address.code s.machine.pc).text ++ ": " ++ i.text ++ "\n" ++
      if s.fault? = none then s.next.machine.display ++ "\n" else "" := by
  unfold stepEntry
  rw [h]

/-- What an action yields, with a log. -/
def record (log : String) : EStateM.Result Fault Session Unit → EStateM.Result Fault Traced Unit
  | .ok u s => .ok u ⟨s, log⟩
  | .error f s => .error f ⟨s, log⟩

/-- The address in the entry of an instruction is made from a program counter that is already past
it. -/
theorem instructionEntry_fetched (s : Session) (w : Word) (i : Instruction) :
    instructionEntry (s.fetched w).machine i =
      (Address.code s.machine.pc).text ++ ": " ++ i.text ++ "\n" := rfl

theorem step_eq (s : Session) (log : String) :
    step ⟨s, log⟩ = record (log ++ stepEntry s) (Session.step s) := by
  rw [step_apply]
  cases hi : s.instruction? with
  | none =>
    rw [Session.step_apply, stepEntry_of_instruction?_none hi, String.append_empty]
    unfold Session.instruction? at hi
    cases hf : Session.fetch s with
    | error f t => rfl
    | ok i t =>
      rw [hf] at hi
      cases hi
  | some i =>
    obtain ⟨w, hw, hd⟩ := Session.instruction?_eq_some_iff.mp hi
    have hstep := Session.step_of_decode_ok hw hd
    rw [Session.fetch_of_decode_ok hw hd, stepEntry_of_instruction? hi,
      ← instructionEntry_fetched s w, hstep]
    unfold Session.fault? Session.next
    rw [hstep]
    dsimp only
    cases Session.execute i (s.fetched w) with
    | ok u t =>
      rw [← String.append_assoc]
      rfl
    | error f t =>
      simp only [Session.faultOf?, reduceCtorEq, if_false, String.append_empty]
      rfl

/-! ## The log of a run -/

/-- What the log says of some steps. They began from the given sessions, latest first. -/
def transcript (past : List Session) : String := String.join (past.reverse.map stepEntry)

@[simp] theorem transcript_nil : transcript [] = "" := rfl

theorem transcript_cons (s : Session) (past : List Session) :
    transcript (s :: past) = transcript past ++ stepEntry s := by
  simp [transcript]

theorem transcript_append_singleton (past : List Session) (s : Session) :
    transcript (past ++ [s]) = stepEntry s ++ transcript past := by
  simp [transcript]

theorem run?_of_halted {fuel : Nat} {s : Session} (h : s.running = false) (log : String) :
    run? fuel ⟨s, log⟩ = some (.ok () ⟨s, log⟩) := by
  unfold run?
  simp [h]

/-- A traced run is the run, with the entries of its steps behind the log. -/
theorem run?_eq (fuel : Nat) : ∀ (s : Session) (log : String),
    run? fuel ⟨s, log⟩ =
      (s.run? fuel).map (record (log ++ transcript (Session.begun fuel s))) := by
  have halted (fuel : Nat) {s : Session} (hrun : s.running = false) (log : String) :
      run? fuel ⟨s, log⟩ =
        (s.run? fuel).map (record (log ++ transcript (Session.begun fuel s))) := by
    rw [run?_of_halted hrun, Session.run?_of_halted hrun, Session.begun_of_halted fuel hrun,
      transcript_nil, String.append_empty]
    rfl
  induction fuel with
  | zero =>
    intro s log
    cases hrun : s.running with
    | false => exact halted 0 hrun log
    | true =>
      unfold run? Session.run?
      rw [if_pos hrun, if_pos hrun]
      rfl
  | succ fuel ih =>
    intro s log
    cases hrun : s.running with
    | false => exact halted (fuel + 1) hrun log
    | true =>
      unfold run? Session.run? Session.begun
      rw [if_pos hrun, if_pos hrun, if_pos hrun]
      dsimp only
      rw [step_eq]
      cases Session.step s with
      | ok u t =>
        show run? fuel ⟨t, log ++ stepEntry s⟩ = _
        rw [ih, transcript_append_singleton, String.append_assoc]
      | error f t =>
        dsimp only
        rw [transcript_cons, transcript_nil, String.empty_append]
        rfl

/-! ## Without the log -/

/-- What a traced action yields, without the log. -/
def forget : EStateM.Result Fault Traced Unit → EStateM.Result Fault Session Unit
  | .ok u t => .ok u t.session
  | .error f t => .error f t.session

/-- The log after a traced action. -/
def logOf : EStateM.Result Fault Traced Unit → String
  | .ok _ t => t.log
  | .error _ t => t.log

@[simp] theorem forget_record (log : String) (r : EStateM.Result Fault Session Unit) :
    forget (record log r) = r := by
  cases r <;> rfl

@[simp] theorem logOf_record (log : String) (r : EStateM.Result Fault Session Unit) :
    logOf (record log r) = log := by
  cases r <;> rfl

theorem forget_run? (fuel : Nat) (t : Traced) :
    (run? fuel t).map forget = t.session.run? fuel := by
  rw [run?_eq]
  cases t.session.run? fuel <;> simp

/-! ## From the beginning of a run -/

theorem whole_stateEntry (m : Machine) : Text.Whole (stateEntry m) := Text.whole_line _

theorem whole_stepEntry (s : Session) : Text.Whole (stepEntry s) := by
  unfold stepEntry
  split
  · exact nofun
  · refine (Text.whole_line _).append ?_
    split
    · exact Text.whole_line _
    · exact nofun

theorem whole_transcript (past : List Session) : Text.Whole (transcript past) := by
  induction past with
  | nil => exact nofun
  | cons s past ih =>
    rw [transcript_cons]
    exact ih.append (whole_stepEntry s)

/-- What a traced run yields is what the run yields, and a log. -/
theorem run?_start {fuel : Nat} {s : Session} {r : EStateM.Result Fault Traced Unit}
    (h : run? fuel (start s) = some r) :
    s.run? fuel = some (forget r) ∧ Text.Whole (logOf r) := by
  unfold start at h
  rw [run?_eq] at h
  obtain ⟨r, hr, rfl⟩ := Option.map_eq_some_iff.mp h
  rw [forget_record, logOf_record]
  exact ⟨hr, (whole_stateEntry s.machine).append (whole_transcript _)⟩

theorem transcript_visited (n : Nat) (s : Session) :
    transcript (Session.visited n s) =
      String.join ((List.range n).map fun k => stepEntry (Session.advance k s)) := by
  have hreverse : (Session.visited n s).reverse =
      (List.range n).map fun k => Session.advance k s := by
    induction n with
    | zero => rfl
    | succ n ih =>
      rw [List.range_succ, List.map_append, ← ih]
      exact List.reverse_cons
  unfold transcript
  rw [hreverse, List.map_map]
  rfl

/-- **Tracing.** A run that is traced from its beginning does what the run does, whatever the
machine and its console: it yields something exactly if the run does, and then the same. Its log is
the state at first and then, for each of the steps that the run makes, in order, what `stepEntry`
says. -/
theorem log_tells_steps (fuel : Nat) (s : Session) :
    (run? fuel (start s)).map forget = s.run? fuel ∧
    ∀ r, run? fuel (start s) = some r → ∃ n, s.Completes n (forget r) ∧
      logOf r = s.machine.display ++ "\n" ++
        String.join ((List.range n).map fun k => stepEntry (Session.advance k s)) := by
  refine ⟨forget_run? fuel (start s), fun r h => ?_⟩
  unfold start at h
  rw [run?_eq] at h
  obtain ⟨r, hr, rfl⟩ := Option.map_eq_some_iff.mp h
  obtain ⟨n, -, hcompletes, hbegun⟩ := Session.completes_of_run? fuel hr
  rw [forget_record, logOf_record, hbegun, transcript_visited]
  exact ⟨n, hcompletes, rfl⟩

/-- A jump over a halt to a division of nothing by nothing. -/
def jumping : Session :=
  ⟨.fresh ⟨3, 4⟩ (.assemble [⟨.goto, 2⟩, ⟨.halt, 0⟩, ⟨.binary .div, 0⟩]), .ofBytes [] none⟩

theorem log_tells_steps_jumping : ∃ r, run? 2 (start jumping) = some r ∧
    Session.faultOf? (forget r) = some (.divisionByZero (.code 2)) ∧
    logOf r = jumping.machine.display ++ "\n" ++
      ("CODE[0]: GOTO 2\n" ++ ((Session.advance 1 jumping).machine.display ++ "\n") ++
        "CODE[2]: DIV\n") := by
  have hends : jumping.Ends 1 (some (.divisionByZero (.code 2))) := by
    refine Session.ends_succ_iff.mpr ⟨rfl, ?_, Session.ends_of_fault? rfl⟩
    rintro ⟨n, hn⟩
    cases hn
  have hrun : jumping.run? 2 = _ := hends.run?_eq rfl (by decide)
  obtain ⟨hforget, hlog⟩ := log_tells_steps 2 jumping
  rw [hrun] at hforget
  obtain ⟨r, hr, hforget⟩ := Option.map_eq_some_iff.mp hforget
  obtain ⟨n, hcompletes, hlog⟩ := hlog r hr
  rw [hforget] at hcompletes
  obtain ⟨rfl, -⟩ := hcompletes.unique (.ended rfl hends)
  have hgoto : stepEntry jumping =
      "CODE[0]: GOTO 2\n" ++ ((Session.advance 1 jumping).machine.display ++ "\n") := by
    have hfault : jumping.fault? = none := rfl
    rw [stepEntry_of_instruction? (i := ⟨.goto, 2⟩) rfl, if_pos hfault]
    rfl
  have hdiv : stepEntry (Session.advance 1 jumping) = "CODE[2]: DIV\n" := by
    rw [stepEntry_of_instruction? (i := ⟨.binary .div, 0⟩) rfl, hends.fault?_eq, if_neg nofun]
    rfl
  refine ⟨r, hr, ?_, ?_⟩
  · rw [hforget, Session.faultOf?_ended]
  · have hrange : List.range 2 = [0, 1] := rfl
    rw [hlog, hrange, List.map_cons, List.map_cons, List.map_nil]
    show _ ++ String.join [stepEntry jumping, stepEntry (Session.advance 1 jumping)] = _
    rw [hgoto, hdiv]
    simp [String.join]

end StackMachine.Traced
