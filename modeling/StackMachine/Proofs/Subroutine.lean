import StackMachine.Proofs.Bounds

/-!
# Subroutines

A call puts the address behind it in front of the return addresses, and a return goes to the first
of them and takes it away. Nothing else touches them, so a subroutine comes back to where it was
called from, whatever it does in between.

* `calls_next`: the three things that a step does to the return addresses;
* `suffix_next`, `returns_next`: what a step leaves of older return addresses, and where it goes
  when it takes one away;
* `suffix_stepped`: older return addresses stay, as long as there are enough of them;
* `subroutine_returns`: the matching return of a call goes to the address behind the call.
-/
namespace StackMachine

/-! ## One step -/

namespace Session

variable {s : Session} {R : List Nat}

/-- A step leaves the return addresses alone, adds the one behind the instruction, or takes away
the one that it goes to. -/
theorem calls_next (s : Session) :
    s.next.machine.calls = s.machine.calls ∨
    s.next.machine.calls = (s.machine.pc + 1) :: s.machine.calls ∨
    s.machine.calls = s.next.machine.pc :: s.next.machine.calls := by
  rcases step_cases s with ⟨f, -, hs⟩ | ⟨w, f, -, -, hs⟩ | ⟨w, i, -, -, hs⟩ <;> unfold next <;>
    rw [hs]
  · exact .inl rfl
  · exact .inl rfl
  · cases execute_moves i (s.fetched w) with
    | on h => exact .inl h.2
    | jump _ hcalls => exact .inl hcalls
    | call _ _ hcalls => exact .inr (.inl hcalls)
    | ret _ hcalls => exact .inr (.inr hcalls)

/-- A call adds the address behind it. -/
theorem calls_next_of_callAt (h : s.machine.code.CallAt s.machine.pc) :
    s.next.machine.calls = (s.machine.pc + 1) :: s.machine.calls := by
  obtain ⟨w, n, hw, hd⟩ := h
  unfold next
  rw [step_of_decode_ok (CodeMemory.fetch_eq_ok_iff.mpr hw) hd]
  rfl

/-- The oldest return addresses stay, if the step leaves at least as many. -/
theorem suffix_next (h : R <:+ s.machine.calls)
    (hdepth : R.length ≤ s.next.machine.calls.length) : R <:+ s.next.machine.calls := by
  rcases calls_next s with hcalls | hcalls | hcalls
  · rw [hcalls]
    exact h
  · rw [hcalls]
    exact h.trans (List.suffix_cons _ _)
  · rw [hcalls, List.suffix_cons_iff] at h
    rcases h with rfl | h
    · exact absurd hdepth (Nat.not_succ_le_self _)
    · exact h

/-- A step that leaves one return address less goes to the one that it took away. -/
theorem returns_next {pc : Nat} (h : (pc :: R) <:+ s.machine.calls)
    (hdepth : s.next.machine.calls.length = R.length) :
    s.next.machine.pc = pc ∧ s.next.machine.calls = R := by
  have hle : R.length + 1 ≤ s.machine.calls.length := h.length_le
  rcases calls_next s with hcalls | hcalls | hcalls
  · rw [hcalls] at hdepth
    omega
  · rw [hcalls, List.length_cons] at hdepth
    omega
  · rw [hcalls] at h
    have hlen : (pc :: R).length = (s.next.machine.pc :: s.next.machine.calls).length := by
      rw [List.length_cons, List.length_cons, hdepth]
    obtain ⟨hpc, hR⟩ := List.cons.inj (h.eq_of_length hlen)
    exact ⟨hpc.symm, hR.symm⟩

end Session

/-! ## Any number of steps -/

namespace Machine

/-- The machine after `n` steps, each at a console of its own, however each of them ended. -/
def stepped (consoles : Nat → Console) : Nat → Machine → Machine
  | 0, m => m
  | n + 1, m => (Session.next ⟨stepped consoles n m, consoles n⟩).machine

variable {m : Machine} {consoles : Nat → Console} {R : List Nat}

/-- From the first step on, the oldest return addresses stay as long as there are that many. -/
theorem suffix_stepped (h : R <:+ (m.stepped consoles 1).calls) (n : Nat)
    (hdepth : ∀ k ≤ n, R.length ≤ (m.stepped consoles (k + 1)).calls.length) :
    R <:+ (m.stepped consoles (n + 1)).calls := by
  induction n with
  | zero => exact h
  | succ n ih =>
    have hn := ih fun k hk => hdepth k (Nat.le_succ_of_le hk)
    exact Session.suffix_next hn (hdepth (n + 1) (Nat.le_refl _))

/-- **Subroutines.** Let a machine be about to execute a call, and let it do that and then any
number of further steps, at any consoles, whether they succeed or fault. While there are no fewer
return addresses than before the call, those from before the call are the oldest of them. When for
the first time there are no more than before the call, the machine is at the address behind the call
and has the return addresses from before. -/
theorem subroutine_returns (hm : m.code.CallAt m.pc) (consoles : Nat → Console) (n : Nat) :
    ((∀ k ≤ n, m.calls.length ≤ (m.stepped consoles (k + 1)).calls.length) →
      m.calls <:+ (m.stepped consoles (n + 1)).calls) ∧
    ((∀ k < n, m.calls.length < (m.stepped consoles (k + 1)).calls.length) →
      (m.stepped consoles (n + 1)).calls.length = m.calls.length →
      (m.stepped consoles (n + 1)).pc = m.pc + 1 ∧
        (m.stepped consoles (n + 1)).calls = m.calls) := by
  have hcall : (m.stepped consoles 1).calls = (m.pc + 1) :: m.calls :=
    Session.calls_next_of_callAt (s := ⟨m, consoles 0⟩) hm
  refine ⟨fun hdepth => ?_, fun habove hlast => ?_⟩
  · refine suffix_stepped ?_ n hdepth
    rw [hcall]
    exact List.suffix_cons _ _
  · cases n with
    | zero =>
      rw [hcall, List.length_cons] at hlast
      omega
    | succ n =>
      -- Up to the last step the address behind the call is still there, in front of the older ones.
      have hbefore : ((m.pc + 1) :: m.calls) <:+ (m.stepped consoles (n + 1)).calls :=
        suffix_stepped (hcall.symm ▸ List.suffix_refl _) n
          fun k hk => habove k (Nat.lt_succ_of_le hk)
      exact Session.returns_next hbefore hlast

/-- A subroutine that calls one that calls one that divides by zero, all called from a
subroutine. -/
def nested : Machine :=
  .fresh ⟨8, 8⟩ (.assemble [⟨.gosub, 2⟩, ⟨.halt, 0⟩, ⟨.gosub, 4⟩, ⟨.ret, 0⟩, ⟨.gosub, 6⟩, ⟨.ret, 0⟩,
    ⟨.binary .div, 0⟩, ⟨.ret, 0⟩])

/-- The console of a program that neither reads nor prints. -/
def silent : Nat → Console := fun _ => .ofBytes [] none

theorem subroutine_returns_nested :
    let m := nested.stepped silent 1
    m.code.CallAt m.pc ∧ m.calls = [1] ∧
      Session.fault? ⟨m.stepped silent 2, silent 2⟩ = some (.divisionByZero (.code 6)) ∧
      (m.stepped silent 3).calls = [5, 3, 1] ∧
      m.calls <:+ (m.stepped silent 3).calls ∧
      (m.stepped silent 5).pc = 3 ∧ (m.stepped silent 5).calls = [1] := by
  intro m
  have hm : m.code.CallAt m.pc := ⟨Instruction.encode ⟨.gosub, 4⟩, 4, rfl, rfl⟩
  obtain ⟨hpc, hcalls⟩ := (subroutine_returns hm silent 4).2 (by decide) (by decide)
  exact ⟨hm, rfl, by decide, by decide, (subroutine_returns hm silent 2).1 (by decide), hpc, hcalls⟩

end Machine

end StackMachine
