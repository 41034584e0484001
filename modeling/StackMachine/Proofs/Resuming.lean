import StackMachine.Proofs.Runs

/-!
# Cutting a run

A run is the steps that it makes. It can be cut after any number of them and taken up again, and
what it leaves behind is what its last step left, with the run flag clear.

* `RunsTo`: a run terminates, and what it yields; `RunsTo.unique`: it yields one result;
* `runsTo_next`, `runsTo_stepsAfter`: the run that goes on after one step and after several;
* `Concludes`: how a run ended, in terms of its steps;
* `run_closes_steps`: every run can be cut, and every run that terminates concludes.
-/
namespace StackMachine.Session

variable {s : Session} {r : EStateM.Result Fault Session Unit}

/-- The run from `s` terminates and yields `r`. -/
def RunsTo (s : Session) (r : EStateM.Result Fault Session Unit) : Prop :=
  ∃ fuel, s.run? fuel = some r

theorem RunsTo.unique {q : EStateM.Result Fault Session Unit} (h : s.RunsTo r) (h' : s.RunsTo q) :
    r = q := by
  obtain ⟨fuel, hr⟩ := h
  obtain ⟨fuel', hq⟩ := h'
  obtain ⟨n, -, hn, -⟩ := completes_of_run? fuel hr
  obtain ⟨m, -, hm, -⟩ := completes_of_run? fuel' hq
  exact (hn.unique hm).2

theorem runsTo_of_halted (h : s.running = false) : s.RunsTo (.ok () s) :=
  ⟨0, run?_of_halted h⟩

/-! ## Cutting -/

/-- A run goes on after a step that does not fault. -/
theorem runsTo_next (hrun : s.running = true) (hfault : s.fault? = none) :
    s.next.RunsTo r ↔ s.RunsTo r := by
  have hstep : step s = .ok () s.next := by
    rcases step_eq s with ⟨-, hs⟩ | ⟨f, hf, -⟩
    · exact hs
    · rw [hfault] at hf
      cases hf
  have hsucc (fuel : Nat) : s.run? (fuel + 1) = s.next.run? fuel := by
    rw [run?_succ hrun, hstep]
  constructor
  · rintro ⟨fuel, h⟩
    exact ⟨fuel + 1, by rw [hsucc, h]⟩
  · rintro ⟨fuel, h⟩
    cases fuel with
    | zero =>
      unfold run? at h
      rw [hrun] at h
      cases h
    | succ fuel => exact ⟨fuel, by rw [← hsucc, h]⟩

theorem runsTo_stepsAfter (n : Nat) : ∀ {count : Nat} {s : Session},
    (stepsAfter count n s).fault? = none →
      ((stepsAfter count n s).session.RunsTo r ↔ s.RunsTo r) := by
  induction n with
  | zero =>
    intro count s _
    exact Iff.rfl
  | succ n ih =>
    intro count s h
    cases hrun : s.running with
    | false =>
      have hstay : (stepsAfter count (n + 1) s).session = s := by simp [stepsAfter, hrun]
      rw [hstay]
    | true =>
      rcases step_eq s with ⟨hfault, hs⟩ | ⟨f, -, hs⟩
      · have hgo : stepsAfter count (n + 1) s = stepsAfter (count + 1) n s.next := by
          simp [stepsAfter, hrun, hs]
        rw [hgo] at h ⊢
        exact (ih h).trans (runsTo_next hrun hfault)
      · simp [stepsAfter, hrun, hs] at h

/-! ## The end of a run -/

/-- How the run of a running machine ended that yielded `r`. The run flag is clear. A run that did
not fault ended with the first step to execute a halt, whose word is still in the instruction
register. A run that faulted ended with the first step to fault, and has cleared the run
flag after it. Running again, at whatever console, changes nothing and succeeds. -/
structure Concludes (s : Session) (r : EStateM.Result Fault Session Unit) : Prop where
  stopped : (after r).running = false
  halted : ∀ t, r = .ok () t → ∃ n operand, t = advance (n + 1) s ∧
    Instruction.decode t.machine.ir = .ok ⟨.halt, operand⟩ ∧ (advance n s).Halts ∧
    ∀ m < n, (advance m s).fault? = none ∧ ¬ (advance m s).Halts
  faulted : ∀ f t, r = .error f t → ∃ n, t = (advance (n + 1) s).stop ∧
    (advance n s).fault? = some f ∧
    ∀ m < n, (advance m s).fault? = none ∧ ¬ (advance m s).Halts
  again : ∀ console q,
    RunsTo ⟨(after r).machine, console⟩ q ↔ q = .ok () ⟨(after r).machine, console⟩

/-- After a halt its word is in the instruction register. -/
theorem Halts.decode_ir (h : s.Halts) :
    ∃ operand, Instruction.decode s.next.machine.ir = .ok ⟨.halt, operand⟩ := by
  obtain ⟨operand, hi⟩ := h
  obtain ⟨w, hw, hd⟩ := instruction?_eq_some_iff.mp hi
  exact ⟨operand, by rw [(next_program hw).2, hd]⟩

theorem running_after_ended {n : Nat} {f? : Option Fault} (h : s.Ends n f?) :
    (after (ended n s f?)).running = false := by
  cases f? with
  | none => exact (h.halts rfl).clears_running.2
  | some f => rfl

theorem Ends.concludes {n : Nat} {f? : Option Fault} (h : s.Ends n f?) :
    Concludes s (ended n s f?) where
  stopped := running_after_ended h
  halted t ht := by
    cases f? with
    | some f => cases ht
    | none =>
      cases ht
      have hhalt := h.halts rfl
      obtain ⟨operand, hir⟩ := hhalt.decode_ir
      exact ⟨n, operand, rfl, hir, hhalt, h.before⟩
  faulted f t ht := by
    cases f? with
    | none => cases ht
    | some g =>
      cases ht
      exact ⟨n, rfl, h.fault?_eq, h.before⟩
  again console q := by
    have hagain : RunsTo ⟨(after (ended n s f?)).machine, console⟩
        (.ok () ⟨(after (ended n s f?)).machine, console⟩) :=
      runsTo_of_halted (running_after_ended h)
    exact ⟨fun hq => hq.unique hagain, fun hq => hq ▸ hagain⟩

/-- **Cutting.** Take any session and make some number of steps, fewer if the run flag is cleared
before. If none of them faults, the run that goes on from there terminates exactly if the run from
the start does, and yields the same result, with the same machine and the same console. And the run
of a running machine concludes, if it terminates. -/
theorem run_closes_steps (s : Session) :
    (∀ n, (steps n s).fault? = none → ∀ r, (steps n s).session.RunsTo r ↔ s.RunsTo r) ∧
    ∀ r, s.running = true → s.RunsTo r → Concludes s r := by
  refine ⟨fun n h r => runsTo_stepsAfter n h, fun r hrun h => ?_⟩
  obtain ⟨fuel, hr⟩ := h
  obtain ⟨n, f?, hends, rfl⟩ := run?_eq_some fuel hrun hr
  exact hends.concludes

/-- A program that prints and then divides by a word that the stack lacks. -/
def printingThenDividing : Session :=
  ⟨.fresh ⟨3, 4⟩ (.assemble [⟨.push, 5⟩, ⟨.print, 0⟩, ⟨.binary .div, 0⟩]), .ofBytes [] none⟩

theorem run_closes_steps_printingThenDividing :
    (steps 2 printingThenDividing).session.console.output.written = "5\n" ∧
      (steps 2 printingThenDividing).session.RunsTo
        (.error (.divisionByZero (.code 2)) (advance 3 printingThenDividing).stop) ∧
      printingThenDividing.RunsTo
        (.error (.divisionByZero (.code 2)) (advance 3 printingThenDividing).stop) ∧
      ∃ n, (advance 3 printingThenDividing).stop = (advance (n + 1) printingThenDividing).stop ∧
        (advance n printingThenDividing).fault? = some (.divisionByZero (.code 2)) := by
  obtain ⟨hcut, hconcludes⟩ := run_closes_steps printingThenDividing
  have hrun : printingThenDividing.RunsTo
      (.error (.divisionByZero (.code 2)) (advance 3 printingThenDividing).stop) := ⟨3, rfl⟩
  obtain ⟨n, hn, hfault, -⟩ := (hconcludes _ rfl hrun).faulted _ _ rfl
  exact ⟨by decide, (hcut 2 rfl _).mpr hrun, hrun, n, hn, hfault⟩

end StackMachine.Session
