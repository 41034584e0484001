import StackMachine.Proofs.Storage

/-!
# Storage and stack apart

Storage reaches up to the mark and the stack down to `sp`. A push that would bring the two together
is refused. A store is not: it may go to any address, the stack's included, and raises the mark to
it.

* `stack_of_store?`: what a store leaves of the stack;
* `apart_next_iff`: a step keeps the regions apart exactly if it stores below the stack;
* `regions_apart_iff`: a history did exactly if each of its stores was below the stack;
* `regions_overlap`: some history has a store that was not.
-/
namespace StackMachine

/-- Storage ends below the stack. -/
def DataMemory.Apart (d : DataMemory) : Prop := d.limit < d.sp

namespace Session

open DataMemory

/-- The next step stores below the stack that is left once its two operands are taken, if it stores
at all. -/
def StoresBelow (s : Session) : Prop := ∀ p ∈ s.store?, p.1 < s.machine.data.dropTwo.sp

instance (s : Session) : Decidable s.StoresBelow :=
  inferInstanceAs (Decidable (∀ p ∈ s.store?, _))

/-- After a store the stack is what the operands leave of it, except for the word at the address
stored to, if that is on the stack. -/
theorem stack_of_store? {s : Session} {a : Nat} {w : Word} (h : s.store? = some (a, w)) :
    s.next.machine.data.stack =
      if s.machine.data.dropTwo.sp ≤ a then
        (s.machine.data.stack.drop 2).set (a - s.machine.data.dropTwo.sp) w
      else s.machine.data.stack.drop 2 := by
  obtain ⟨-, hd⟩ := next_data_of_store? h
  rw [hd, stack_stored, stack_dropTwo]

theorem apart_next_iff {s : Session} (hs : s.machine.data.Sound) (h : s.machine.data.Apart) :
    s.next.machine.data.Apart ↔ s.StoresBelow := by
  unfold StoresBelow
  cases hst : s.store? with
  | none =>
    obtain ⟨-, -, hl, -, hsp⟩ := next_data_of_store?_none frame_keepsStorage hst hs
    refine ⟨fun _ => nofun, fun _ => ?_⟩
    unfold Apart
    rw [hl]
    exact hsp h
  | some p =>
    obtain ⟨a, w⟩ := p
    obtain ⟨-, hd⟩ := next_data_of_store? hst
    obtain ⟨-, -, hl, -, hsp⟩ := frame_keepsStorage.dropTwo _ hs
    have hlt := hsp h
    rw [hd]
    unfold Apart
    simp only [stored, hl, Option.mem_def, Option.some.injEq, forall_eq']
    omega

/-- The memories of a history are apart exactly if its stores were below the stack. -/
theorem Calls.apart_iff {start s : Session} (hs : start.machine.data.Sound)
    (ha : start.machine.data.Apart) {past : List Session} (h : Calls start past s) :
    s.machine.data.Sound ∧
      ((∀ t ∈ s :: past, t.machine.data.Apart) ↔ ∀ t ∈ past, t.StoresBelow) := by
  refine h.closed (P := fun past s => s.machine.data.Sound ∧
    ((∀ t ∈ s :: past, t.machine.data.Apart) ↔ ∀ t ∈ past, t.StoresBelow)) ?_ ?_ ?_
  · intro past s ⟨hs, ih⟩
    refine ⟨sound_next hs, ?_⟩
    rw [List.forall_mem_cons, ih, List.forall_mem_cons]
    constructor
    · rintro ⟨hn, hp⟩
      have ha := ih.mpr hp s List.mem_cons_self
      exact ⟨(apart_next_iff hs ha).mp hn, hp⟩
    · rintro ⟨hb, hp⟩
      have ha := ih.mpr hp s List.mem_cons_self
      exact ⟨(apart_next_iff hs ha).mpr hb, hp⟩
  · intro past s ⟨hs, ih⟩
    refine ⟨hs, ?_⟩
    rw [← ih, List.forall_mem_cons, List.forall_mem_cons, data_stop]
  · exact ⟨hs, by simp [ha]⟩

/-- **Regions.** Take a machine with a data memory of at least one and less than 2^63 words, any
program and console, and any finite sequence of steps and runs. Storage ends below the stack exactly
if every address stored to lies below it. It did so all along exactly if each store went below the
stack that its operands left; any other store replaced the word of that stack at its address, and
no other. -/
theorem regions_apart_iff {config : Config} (hpos : 1 ≤ config.dataCapacity)
    (hlt : config.dataCapacity < 2 ^ 63) {program : Program} {m : Machine}
    (hm : Machine.ofProgram config program = .ok m) {console : Console}
    {past : List Session} {s : Session} (h : Calls ⟨m, console⟩ past s) :
    (s.machine.data.Apart ↔ ∀ a ∈ addresses past, a < s.machine.data.sp) ∧
    ((∀ t ∈ s :: past, t.machine.data.Apart) ↔ ∀ t ∈ past, t.StoresBelow) ∧
    ∀ t ∈ s :: past, ∀ a w, t.store? = some (a, w) →
      t.next.machine.data.stack =
        if t.machine.data.dropTwo.sp ≤ a then
          (t.machine.data.stack.drop 2).set (a - t.machine.data.dropTwo.sp) w
        else t.machine.data.stack.drop 2 := by
  have hr := h.recorded hlt hm
  refine ⟨?_, ?_, fun t _ a w ht => stack_of_store? ht⟩
  · unfold Apart
    rw [hr.limit_eq]
    exact highest_lt_iff (hr.sound.sp_pos (by rw [hr.capacity_eq]; exact hpos))
  · obtain ⟨-, rfl⟩ := Machine.ofProgram_eq_ok_iff.mp hm
    refine (h.apart_iff (sound_empty hlt) ?_).2
    exact hpos

/-- In a history whose one store hits the top of the stack, the regions overlap from then on. -/
theorem regions_apart_iff_overwriting :
    (advance 3 overwriter).store? = some (7, 9) ∧
      (advance 3 overwriter).machine.data.stack = [9, 7, 1] ∧
      (advance 4 overwriter).machine.data.stack = [9] ∧
      ¬ (advance 4 overwriter).machine.data.Apart ∧
      ¬ ∀ t ∈ advance 4 overwriter :: visited 4 overwriter, t.machine.data.Apart := by
  obtain ⟨hnow, hall, hstack⟩ :=
    regions_apart_iff (by decide) (by decide) ofProgram_overwriting (calls_advance overwriter 4)
  have hst : (advance 3 overwriter).store? = some (7, 9) := rfl
  refine ⟨hst, by decide, hstack (advance 3 overwriter) (by simp [visited]) 7 9 hst, ?_, ?_⟩
  · intro h
    exact absurd (hnow.mp h 7 (by decide)) (by decide)
  · intro h
    exact absurd (hall.mp h (advance 3 overwriter) (by simp [visited])) (by decide)

/-- Storage and stack may overlap. -/
theorem regions_overlap :
    ¬ ∀ (config : Config) (program : Program) (m : Machine) (console : Console)
      (past : List Session) (s : Session), 1 ≤ config.dataCapacity →
      config.dataCapacity < 2 ^ 63 → Machine.ofProgram config program = .ok m →
      Calls ⟨m, console⟩ past s → s.machine.data.limit < s.machine.data.sp := by
  intro h
  have hlt := h _ _ _ _ _ _ (by decide) (by decide) ofProgram_overwriting
    (calls_advance overwriter 4)
  exact absurd hlt (by decide)

end Session

end StackMachine
