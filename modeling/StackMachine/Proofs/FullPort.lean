import StackMachine.Proofs.Agreement
import StackMachine.Proofs.Runs

/-!
# A full output port

A session at a port without a limit, and the same session at another port. They go alike as long as
the other port takes what is printed, and the first print that it does not take ends the run there.

* `lockstep_withOutput`: only a print can tell one port from another;
* `fault?_next_of_taken`, `fault?_next_of_refused`: a step at the other port;
* `Ends.withOutput`, `Completes.withOutput`: a run at a port that takes everything;
* `Fills`, `Ends.fills`, `Completes.fills`: a run at a port that it fills;
* `full_port_cuts_output`: both, for an empty port with a limit.
-/
namespace StackMachine.Session

variable {s : Session} {f : Fault} {f? : Option Fault} {o p q : Output} {n k : Nat}

/-! ## Steps -/

/-- No part of an instruction but a print looks at the output port. -/
theorem lockstep_withOutput (p : Output) :
    Lockstep (fun _ => False) fun s t => t = s.withOutput p where
  pop := by
    rintro s _ rfl
    exact .ok _ rfl
  push := by
    rintro s _ rfl w
    rw [push_apply, push_apply]
    dsimp only [withOutput]
    cases s.machine.data.push w with
    | ok d => exact .ok () rfl
    | error f => exact .error f rfl
  division := by
    rintro s _ rfl
    exact .error _ rfl
  halt := by
    rintro s _ rfl
    exact .ok () rfl
  jump := by
    rintro s _ rfl pc
    exact .ok () rfl
  call := by
    rintro s _ rfl pc
    exact .ok () rfl
  ret := by
    rintro s _ rfl
    unfold ret
    dsimp only [withOutput]
    cases s.machine.calls with
    | nil => exact .error _ rfl
    | cons pc calls => exact .ok () rfl
  read := by
    rintro s _ rfl
    unfold read Console.read
    dsimp only [withOutput]
    cases s.console.input.read with
    | ok w input => exact .ok w rfl
    | error f input => exact .error f rfl

theorem instruction?_withOutput (s : Session) (p : Output) :
    (s.withOutput p).instruction? = s.instruction? := by
  apply Option.ext
  intro i
  rw [instruction?_eq_some_iff, instruction?_eq_some_iff]
  rfl

theorem halts_withOutput_iff : (s.withOutput p).Halts ↔ s.Halts := by
  unfold Halts
  rw [instruction?_withOutput]

/-- A step that prints nothing is the same at every port. -/
theorem fault?_next_of_print?_none (h : s.print? = none) (p : Output) :
    (s.withOutput p).fault? = s.fault? ∧ (s.withOutput p).next = s.next.withOutput p := by
  suffices hagree : Agree (fun _ => False) (fun s t => t = s.withOutput p) (step s)
      (step (s.withOutput p)) from hagree.same fun _ _ => id
  refine step_agree rfl (fun _ => rfl) rfl (fun _ => id) (fun _ => .inr) fun i w hi => ?_
  refine (lockstep_withOutput p).execute rfl i (fun _ => ?_) (fun hop => ?_) fun hop => ?_
  · rw [load_apply, load_apply]
    dsimp only [withOutput, fetched]
    cases s.machine.data.load i.target with
    | ok v => exact .ok v rfl
    | error f => exact .error f rfl
  · rw [execute_sto hop, execute_sto hop]
    dsimp only [withOutput, fetched]
    cases s.machine.data.index? (s.machine.data.operand 1).toInt with
    | some a => exact .ok () rfl
    | none => exact .error _ rfl
  · exact absurd hop (print?_eq_none_iff.mp h i hi)

/-- At another port a step does what it does without a limit. It faults if the port does not take
what it prints. -/
theorem fault?_next_withOutput (hroom : s.console.output.room = none) (p : Output) :
    match Output.write (Output.text s.print?.toList) p with
    | .ok _ q =>
      (s.withOutput p).fault? = s.fault? ∧ (s.withOutput p).next = s.next.withOutput q
    | .error f q =>
      (s.withOutput p).fault? = some f ∧ (s.withOutput p).next = s.next.withOutput q := by
  cases hp : s.print? with
  | none =>
    rw [Option.toList_none, Output.text_nil, Output.write_empty]
    exact fault?_next_of_print?_none hp p
  | some w =>
    obtain ⟨t, -, hs⟩ := step_of_print? hp
    have hstep : step s = _ := hs s.console.output
    rw [Output.print, Output.write_of_room_none hroom] at hstep
    rw [Option.toList_some, Output.text_singleton]
    unfold fault? next
    rw [hstep, hs p, Output.print]
    cases Output.write (Output.line w) p <;> exact ⟨rfl, rfl⟩

theorem fault?_next_of_taken (hroom : s.console.output.room = none)
    (h : Output.write (Output.text s.print?.toList) p = .ok () q) :
    (s.withOutput p).fault? = s.fault? ∧ (s.withOutput p).next = s.next.withOutput q := by
  have hstep := fault?_next_withOutput hroom p
  rwa [h] at hstep

theorem fault?_next_of_refused (hroom : s.console.output.room = none)
    (h : Output.write (Output.text s.print?.toList) p = .error f q) :
    (s.withOutput p).fault? = some f ∧ (s.withOutput p).next = s.next.withOutput q := by
  have hstep := fault?_next_withOutput hroom p
  rwa [h] at hstep

/-! ## Runs -/

/-- The text that a number of steps prints. -/
def printedText (n : Nat) (s : Session) : String := Output.text (printed (visited n s))

theorem printedText_zero (s : Session) : printedText 0 s = "" := rfl

theorem printedText_succ (n : Nat) (s : Session) :
    printedText (n + 1) s = Output.text s.print?.toList ++ printedText n s.next := by
  unfold printedText printed
  rw [← visited_next, List.reverse_append, List.filterMap_append, Output.text_append]
  cases hp : s.print? <;> simp [hp]

theorem room_next (hroom : s.console.output.room = none) : s.next.console.output.room = none := by
  rw [output_next hroom]

/-- A port that takes all that a run prints sees the same run. -/
theorem Ends.withOutput (h : s.Ends n f?) (hroom : s.console.output.room = none)
    (hw : Output.write (printedText (n + 1) s) p = .ok () q) :
    (s.withOutput p).Ends n f? ∧
      advance (n + 1) (s.withOutput p) = (advance (n + 1) s).withOutput q := by
  -- From the first step on: what it leaves of the port is the port of the other steps.
  induction n generalizing s p with
  | zero =>
    rw [printedText_succ, printedText_zero, String.append_empty] at hw
    obtain ⟨hfault, hnext⟩ := fault?_next_of_taken hroom hw
    refine ⟨⟨nofun, hfault.trans h.fault?_eq, fun hf => ?_⟩, hnext⟩
    exact halts_withOutput_iff.mpr (h.halts hf)
  | succ n ih =>
    rw [printedText_succ] at hw
    obtain ⟨p', hfirst, hrest⟩ := Output.write_append_eq_ok_iff.mp hw
    obtain ⟨hnone, hno, hends⟩ := ends_succ_iff.mp h
    obtain ⟨hfault, hnext⟩ := fault?_next_of_taken hroom hfirst
    obtain ⟨hends', hadvance⟩ := ih hends (room_next hroom) hrest
    rw [← hnext, advance_next, advance_next] at hadvance
    rw [← hnext] at hends'
    refine ⟨ends_succ_iff.mpr ⟨hfault.trans hnone, ?_, hends'⟩, hadvance⟩
    exact mt halts_withOutput_iff.mp hno

/-- At port `p` the run from `s` goes on for `k` steps as it does without a limit. The next step
prints what the port does not take, which is the end of the run. -/
structure Fills (s : Session) (p : Output) (k : Nat) (f : Fault) (q : Output) : Prop where
  taken : ∀ j ≤ k, ∃ o, Output.write (printedText j s) p = .ok () o
  refused : Output.write (printedText (k + 1) s) p = .error f q
  ends : (s.withOutput p).Ends k (some f)
  advance_eq : advance (k + 1) (s.withOutput p) = (advance (k + 1) s).withOutput q

theorem fills_zero (hroom : s.console.output.room = none)
    (h : Output.write (Output.text s.print?.toList) p = .error f q) : s.Fills p 0 f q := by
  obtain ⟨hfault, hnext⟩ := fault?_next_of_refused hroom h
  refine ⟨fun j hj => ?_, ?_, ends_of_fault? hfault, hnext⟩
  · rw [Nat.le_zero.mp hj]
    exact ⟨p, Output.write_empty p⟩
  · rwa [printedText_succ, printedText_zero, String.append_empty]

/-- A step whose print the port takes may come before. -/
theorem Fills.succ (h : s.next.Fills o k f q) (hroom : s.console.output.room = none)
    (hfault : s.fault? = none) (hno : ¬ s.Halts)
    (hfirst : Output.write (Output.text s.print?.toList) p = .ok () o) : s.Fills p (k + 1) f q := by
  obtain ⟨hfault', hnext⟩ := fault?_next_of_taken hroom hfirst
  refine ⟨fun j hj => ?_, ?_, ?_, ?_⟩
  · cases j with
    | zero => exact ⟨p, Output.write_empty p⟩
    | succ j =>
      obtain ⟨o', ho'⟩ := h.taken j (Nat.le_of_succ_le_succ hj)
      rw [printedText_succ]
      exact ⟨o', Output.write_append_eq_ok_iff.mpr ⟨o, hfirst, ho'⟩⟩
  · rw [printedText_succ]
    exact Output.write_append_eq_error_iff.mpr (.inr ⟨o, hfirst, h.refused⟩)
  · have hends := h.ends
    rw [← hnext] at hends
    exact ends_succ_iff.mpr ⟨hfault'.trans hfault, mt halts_withOutput_iff.mp hno, hends⟩
  · have hadvance := h.advance_eq
    rwa [← hnext, advance_next, advance_next] at hadvance

/-- A run that prints what the port does not take fills it at one of its steps. -/
theorem Ends.fills (h : s.Ends n f?) (hroom : s.console.output.room = none)
    (hw : Output.write (printedText (n + 1) s) p = .error f q) : ∃ k ≤ n, s.Fills p k f q := by
  -- Either the first step is refused, or one of the others by what it has left of the port.
  induction n generalizing s p with
  | zero =>
    rw [printedText_succ, printedText_zero, String.append_empty] at hw
    exact ⟨0, Nat.le_refl 0, fills_zero hroom hw⟩
  | succ n ih =>
    rw [printedText_succ] at hw
    rcases Output.write_append_eq_error_iff.mp hw with hfirst | ⟨o, hfirst, hrest⟩
    · exact ⟨0, Nat.zero_le _, fills_zero hroom hfirst⟩
    · obtain ⟨hfault, hno, hends⟩ := ends_succ_iff.mp h
      obtain ⟨k, hk, hfills⟩ := ih hends (room_next hroom) hrest
      exact ⟨k + 1, Nat.succ_le_succ hk, hfills.succ hroom hfault hno hfirst⟩

/-- The step that fills the port is a print. -/
theorem Fills.exists_print? (h : s.Fills p k f q) : ∃ w, (advance k s).print? = some w := by
  cases hp : (advance k s).print? with
  | some w => exact ⟨w, rfl⟩
  | none =>
    obtain ⟨o, ho⟩ := h.taken k (Nat.le_refl k)
    have hsame : printedText (k + 1) s = printedText k s := by
      show Output.text (printed (advance k s :: visited k s)) = _
      rw [printed_cons, hp, Option.toList_none, List.append_nil]
      rfl
    have hrefused := h.refused
    rw [hsame, ho] at hrefused
    cases hrefused

theorem after_ended_withOutput
    (h : advance (n + 1) (s.withOutput p) = (advance (n + 1) s).withOutput q) (f? : Option Fault) :
    after (ended n (s.withOutput p) f?) = (after (ended n s f?)).withOutput q := by
  unfold ended
  rw [h]
  cases f? <;> rfl

section
variable {fuel : Nat} {r : EStateM.Result Fault Session Unit}

theorem Completes.withOutput (h : s.Completes n r) (hroom : s.console.output.room = none)
    (hw : Output.write (printedText n s) p = .ok () q) (hfuel : n ≤ fuel) :
    ∃ r', (s.withOutput p).run? fuel = some r' ∧ faultOf? r' = faultOf? r ∧
      after r' = (after r).withOutput q := by
  cases h with
  | halted hrun =>
    rw [printedText_zero, Output.write_empty] at hw
    cases hw
    exact ⟨_, run?_of_halted hrun, rfl, rfl⟩
  | ended hrun hends =>
    obtain ⟨hends', hadvance⟩ := hends.withOutput hroom hw
    refine ⟨_, hends'.run?_eq hrun hfuel, ?_, after_ended_withOutput hadvance _⟩
    rw [faultOf?_ended, faultOf?_ended]

theorem Completes.fills (h : s.Completes n r) (hroom : s.console.output.room = none)
    (hw : Output.write (printedText n s) p = .error f q) (hfuel : n ≤ fuel) :
    ∃ k < n, s.Fills p k f q ∧
      (s.withOutput p).run? fuel = some (.error f ((advance (k + 1) s).stop.withOutput q)) := by
  cases h with
  | halted =>
    rw [printedText_zero, Output.write_empty] at hw
    cases hw
  | ended hrun hends =>
    obtain ⟨k, hk, hfills⟩ := hends.fills hroom hw
    refine ⟨k, Nat.lt_succ_of_le hk, hfills, ?_⟩
    rw [hfills.ends.run?_eq hrun (Nat.lt_of_le_of_lt hk hfuel), Session.ended, hfills.advance_eq]
    rfl

end

/-- Prints a number of two digits and one of one digit. -/
def twoPrints : Session :=
  ⟨.fresh ⟨5, 4⟩ (.assemble [⟨.push, 12⟩, ⟨.print, 0⟩, ⟨.push, 7⟩, ⟨.print, 0⟩, ⟨.halt, 0⟩]),
    .ofBytes [] none⟩

end StackMachine.Session
