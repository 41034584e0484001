import StackMachine.Proofs.Frame

/-!
# Histories

A machine is driven from outside by calls that step it once or run it. `Calls start past s` says
that some finite sequence of calls leads from `start` to `s`; `past` are the sessions from which the
steps of these calls began, latest first, those of runs and those that faulted included.

* `Calls.closed`: what a single step and the clearing of the run flag keep holds of every history;
* `calls_advance`: single steps, one after the other, are calls.
-/
namespace StackMachine

/-- The machine that is about to run a program, if the program fits. -/
def Machine.fresh (config : Config) (program : Program) : Machine where
  running := true
  code := .ofProgram program config.codeCapacity
  data := .empty config.dataCapacity
  pc := 0
  ir := 0
  calls := []

theorem Machine.ofProgram_eq_ok_iff {config : Config} {program : Program} {m : Machine} :
    Machine.ofProgram config program = .ok m ↔
      program.length ≤ config.codeCapacity ∧ m = .fresh config program := by
  unfold Machine.ofProgram
  split
  · rename_i h
    rw [Except.ok.injEq]
    exact ⟨fun e => ⟨h, e.symm⟩, fun e => e.2.symm⟩
  · rename_i h
    exact ⟨nofun, fun e => absurd e.1 h⟩

namespace Session

/-- The sessions from which a run begins its steps, latest first. -/
def begun : Nat → Session → List Session
  | 0, _ => []
  | fuel + 1, s =>
    if s.running then
      match step s with
      | .ok _ t => begun fuel t ++ [s]
      | .error _ _ => [s]
    else []

/-- A finite sequence of calls from a session, with the sessions from which steps began. A run
that does not end is no call. -/
inductive Calls (start : Session) : List Session → Session → Prop
  | none : Calls start [] start
  | step {past : List Session} {s : Session} (h : Calls start past s) :
    Calls start (s :: past) s.next
  | run {past : List Session} {s : Session} {fuel : Nat}
    {r : EStateM.Result Fault Session Unit} (h : Calls start past s) (hr : s.run? fuel = some r) :
    Calls start (begun fuel s ++ past) (after r)

/-! ## Induction over histories -/

section
variable {P : List Session → Session → Prop}
  (hstep : ∀ past s, P past s → P (s :: past) s.next)
  (hstop : ∀ past s, P past s → P past s.stop)

include hstep hstop in
/-- A run is steps, followed by the clearing of the run flag if the last of them faults. -/
theorem run?_closed (fuel : Nat) : ∀ {past : List Session} {s : Session}
    {r : EStateM.Result Fault Session Unit}, P past s → s.run? fuel = some r →
      P (begun fuel s ++ past) (after r) := by
  induction fuel with
  | zero =>
    intro past s r hp hr
    unfold run? at hr
    split at hr
    · cases hr
    · cases hr; exact hp
  | succ fuel ih =>
    intro past s r hp hr
    have hnext := hstep past s hp
    unfold run? at hr
    unfold begun
    unfold next at hnext
    split at hr
    · rename_i hrun
      rw [if_pos hrun]
      cases hs : step s with
      | ok u t =>
        rw [hs] at hr hnext
        simp only [List.append_assoc, List.singleton_append]
        exact ih hnext hr
      | error f t =>
        rw [hs] at hr hnext
        cases hr
        exact hstop _ _ hnext
    · rename_i hrun
      rw [if_neg hrun]
      cases hr; exact hp

include hstep hstop in
/-- What holds at the start, and is kept by a step and by the clearing of the run flag, holds of
every history. -/
theorem Calls.closed {start : Session} (hstart : P [] start) {past : List Session} {s : Session}
    (h : Calls start past s) : P past s := by
  induction h with
  | none => exact hstart
  | step _ ih => exact hstep _ _ ih
  | run _ hr ih => exact run?_closed hstep hstop _ ih hr

end

/-- The clearing of the run flag is seen in no memory. -/
@[simp] theorem data_stop (s : Session) : s.stop.machine.data = s.machine.data := rfl

/-! ## Single steps -/

/-- The session after `n` steps, however each of them ended. -/
def advance : Nat → Session → Session
  | 0, s => s
  | n + 1, s => (advance n s).next

/-- The sessions from which the first `n` steps began, latest first. -/
def visited : Nat → Session → List Session
  | 0, _ => []
  | n + 1, s => advance n s :: visited n s

theorem calls_advance (s : Session) : ∀ n, Calls s (visited n s) (advance n s)
  | 0 => .none
  | n + 1 => .step (calls_advance s n)

end Session

end StackMachine
