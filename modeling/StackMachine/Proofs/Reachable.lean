import StackMachine.Proofs.Storage

/-!
# Reachable machines

A machine is driven by calls that step it once or run it, each at a console of its own choice.
`Reachable config program m` says that some finite sequence of such calls leads to `m`, calls that
fault included.

* `Reachable.closed`: what loading establishes, and steps and the clearing of the run flag keep,
  holds of every reachable machine;
* `Reachable.sound`: so does the soundness of data memory.
-/
namespace StackMachine

/-- A machine that a finite sequence of calls leads to. A run that does not end is no call. -/
inductive Machine.Reachable (config : Config) (program : Program) : Machine → Prop
  | load {m : Machine} (h : Machine.ofProgram config program = .ok m) : Reachable config program m
  | step {m : Machine} (h : Reachable config program m) (console : Console) :
    Reachable config program (Session.next ⟨m, console⟩).machine
  | run {m : Machine} (h : Reachable config program m) {console : Console} {fuel : Nat}
    {r : EStateM.Result Fault Session Unit} (hr : Session.run? fuel ⟨m, console⟩ = some r) :
    Reachable config program (Session.after r).machine

variable {config : Config} {program : Program}

theorem Machine.Reachable.closed {P : Machine → Prop} (hload : P (.fresh config program))
    (hstep : ∀ s : Session, P s.machine → P s.next.machine)
    (hstop : ∀ s : Session, P s.machine → P s.stop.machine) {m : Machine}
    (h : Reachable config program m) : P m := by
  induction h with
  | load hm =>
    obtain ⟨-, rfl⟩ := Machine.ofProgram_eq_ok_iff.mp hm
    exact hload
  | step _ console ih => exact hstep _ ih
  | run _ hr ih =>
    exact @Session.run?_closed (fun _ s => P s.machine) (fun _ => hstep) (fun _ => hstop) _ [] _ _
      ih hr

theorem Machine.Reachable.sound (hlt : config.dataCapacity < 2 ^ 63) {m : Machine}
    (h : Reachable config program m) : m.data.Sound :=
  h.closed (P := fun m => m.data.Sound) (DataMemory.sound_empty hlt)
    (fun _ => Session.sound_next) fun _ => id

/-- The machines of a history are reachable. -/
theorem Session.Calls.reachable {m : Machine} (hm : Machine.ofProgram config program = .ok m)
    {console : Console} {past : List Session} {s : Session} (h : Calls ⟨m, console⟩ past s) :
    s.machine.Reachable config program := by
  induction h with
  | none => exact .load hm
  | step _ ih => exact ih.step _
  | run _ hr ih => exact ih.run hr

end StackMachine
