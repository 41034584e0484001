import StackMachine.Proofs.Agreement
import StackMachine.Proofs.Code
import StackMachine.Proofs.Regions

/-!
# Capacities are bounds

A machine with more memory does the same as one with less, as long as the smaller one gets along
with what it has. The stack of the larger one lies higher by the difference of the capacities, so
no address of the stack is the same in both.

* `Confined`: a step that looks at no such address and does not fail for lack of memory;
* `Shifted`: a data memory and a larger one with the same contents;
* `next_twin`: a confined step has the same outcome in both machines;
* `capacities_are_bounds`: and so has every run of confined steps.
-/
namespace StackMachine

/-- Whether the fault is for lack of memory: a larger one might have helped. -/
def Fault.lacksMemory : Fault → Bool
  | .stackCollision .. | .addressOutOfRange .. | .programCounterOutOfRange .. => true
  | _ => false

/-! ## Memories of two sizes -/

theorem CodeMemory.lacksMemory_of_fetch_error {code : CodeMemory} {pc : Nat} {f : Fault}
    (h : code.fetch pc = .error f) : f.lacksMemory = true := by
  obtain ⟨-, rfl⟩ := fetch_eq_error_iff.mp h
  rfl

namespace DataMemory

/-- The second memory is larger than the first by `k` words, and its stack lies higher by as much.
Stack, mark and count of missed pops are the same, and so are the words at address zero and at the
addresses stored to. -/
structure Shifted (k : Nat) (stored : List Nat) (d e : DataMemory) : Prop where
  sound : d.Sound
  sound' : e.Sound
  capacity_eq : e.capacity = d.capacity + k
  sp_eq : e.sp = d.sp + k
  stack_eq : e.stack = d.stack
  limit_eq : e.limit = d.limit
  underflows_eq : e.underflows = d.underflows
  stored_le : ∀ a ∈ stored, a ≤ d.limit ∧ a < d.capacity
  cells_eq : ∀ a, a = 0 ∨ a ∈ stored → a < d.capacity → e.cells[a]? = d.cells[a]?

namespace Shifted

variable {k : Nat} {stored : List Nat} {d e : DataMemory}

theorem empty {small large : Nat} (hle : small ≤ large) (hlt : large < 2 ^ 63) :
    Shifted (large - small) [] (.empty small) (.empty large) := by
  refine ⟨sound_empty (by omega), sound_empty hlt, ?_, ?_, ?_, rfl, rfl, nofun, ?_⟩
  · rw [capacity_empty, capacity_empty]; omega
  · simp only [DataMemory.empty]; omega
  · simp [DataMemory.empty, stack]
  · intro a _ ha
    rw [capacity_empty] at ha
    simp only [DataMemory.empty, Array.getElem?_replicate]
    rw [if_pos (by omega), if_pos ha]

/-- What pops and pushes do to storage they do to both memories, so only the stacks are compared. -/
theorem keep (h : Shifted k stored d e) {d' e' : DataMemory} (hd : KeepsStorage d d')
    (he : KeepsStorage e e') (hsp : e'.sp = d'.sp + k) (hstack : e'.stack = d'.stack)
    (hunder : e'.underflows = d'.underflows) : Shifted k stored d' e' := by
  obtain ⟨hs, hcap, hlim, hcells, -⟩ := hd h.sound
  obtain ⟨hs', hcap', hlim', hcells', -⟩ := he h.sound'
  have hc := h.capacity_eq
  have hl := h.limit_eq
  refine ⟨hs, hs', by omega, hsp, hstack, by omega, hunder, fun a ha => ?_, fun a ha hlt => ?_⟩
  · rw [hlim, hcap]; exact h.stored_le a ha
  · have hle : a ≤ d.limit := by
      rcases ha with rfl | ha
      · exact Nat.zero_le _
      · exact (h.stored_le a ha).1
    rw [hcells a hle, hcells' a (by omega)]
    exact h.cells_eq a ha (by omega)

theorem pop (h : Shifted k stored d e) : Shifted k stored d.pop.2 e.pop.2 := by
  have hc := h.capacity_eq
  have hsp := h.sp_eq
  refine h.keep (frame_keepsStorage.pop d) (frame_keepsStorage.pop e) ?_ ?_ ?_
  · rw [sp_pop, sp_pop]; split <;> split <;> omega
  · rw [stack_pop, stack_pop, h.stack_eq]
  · rw [underflows_pop, underflows_pop, h.underflows_eq]; split <;> split <;> omega

theorem dropTwo (h : Shifted k stored d e) : Shifted k stored d.dropTwo e.dropTwo := h.pop.pop

theorem operand_eq (h : Shifted k stored d e) (i : Nat) : e.operand i = d.operand i := by
  rw [operand, operand, h.stack_eq]

theorem push (h : Shifted k stored d e) {w : Word} {d' : DataMemory} (hp : d.push w = .ok d') :
    ∃ e', e.push w = .ok e' ∧ Shifted k stored d' e' := by
  obtain ⟨hlt, rfl⟩ := push_ok h.sound hp
  have hsp := h.sp_eq
  have hlim := h.limit_eq
  have he : e.push w = .ok (e.pushed w) := by
    rw [push_eq h.sound', if_pos (by omega)]
  refine ⟨_, he, h.keep (frame_keepsStorage.push hp) (frame_keepsStorage.push he) ?_ ?_ ?_⟩
  · simp only [pushed]; omega
  · rw [stack_pushed d w (by omega) h.sound.sp_le, stack_pushed e w (by omega) h.sound'.sp_le,
      h.stack_eq]
  · exact h.underflows_eq

/-- A push fails on the first memory for lack of memory only. -/
theorem lockstep : Lockstep (fun f => f.lacksMemory) (Shifted k stored) where
  pop_word h := by rw [pop_word, pop_word, h.stack_eq]
  pop h := h.pop
  push_ok h hp := h.push hp
  push_error h hp := by
    obtain ⟨-, rfl⟩ := push_error h.sound hp
    exact .inl rfl

/-- A store below the stack leaves both stacks alone. -/
theorem store (h : Shifted k stored d e) {a : Nat} (ha : a < d.sp) (w : Word) :
    Shifted k (a :: stored) (d.stored a w) (e.stored a w) := by
  have hle := h.sound.sp_le
  have hc := h.capacity_eq
  have hsp := h.sp_eq
  refine ⟨h.sound.stored (by omega) w, h.sound'.stored (by omega) w, ?_, hsp, ?_, ?_,
    h.underflows_eq, fun b hb => ?_, fun b hb hlt => ?_⟩
  · rw [capacity_stored, capacity_stored, hc]
  · rw [stack_stored, stack_stored, if_neg (by omega), if_neg (by omega), h.stack_eq]
  · simp only [DataMemory.stored, h.limit_eq]
  · rw [capacity_stored]
    simp only [DataMemory.stored]
    rcases List.mem_cons.mp hb with rfl | hb
    · omega
    · have := h.stored_le b hb; omega
  · rw [capacity_stored] at hlt
    by_cases hba : b = a
    · subst hba
      rw [getElem?_stored_self d hlt, getElem?_stored_self e (by omega)]
    · rw [getElem?_stored_ne d (Ne.symm hba), getElem?_stored_ne e (Ne.symm hba)]
      refine h.cells_eq b ?_ hlt
      rcases hb with rfl | hb
      · exact .inl rfl
      · exact .inr ((List.mem_cons.mp hb).resolve_left hba)

theorem load_eq (h : Shifted k stored d e) {a : Nat} (ha : a = 0 ∨ a ∈ stored)
    (hlt : a < d.capacity) : e.load a = d.load a :=
  load_eq_of_cell hlt (h.cells_eq a ha hlt)

/-- A load of such a word yields the same from both memories, or fails on the first for lack of
memory. -/
theorem load (h : Shifted k stored d e) {a : Nat} (ha : a = 0 ∨ a ∈ stored) :
    (∃ w, d.load a = .ok w ∧ e.load a = .ok w) ∨
    ∃ f, d.load a = .error f ∧ f.lacksMemory = true := by
  cases hl : d.load a with
  | ok w =>
    obtain ⟨i, hi, hw⟩ := load_eq_ok_iff.mp hl
    obtain rfl : a = i := Int.natCast_inj.mp hi
    have hlt : a < d.capacity := (Array.getElem?_eq_some_iff.mp hw).1
    exact .inl ⟨w, rfl, (h.load_eq ha hlt).trans hl⟩
  | error f =>
    obtain ⟨-, rfl⟩ := load_error hl
    exact .inr ⟨_, rfl, rfl⟩

end Shifted

end DataMemory

/-! ## One step -/

namespace Session

open DataMemory

/-- The next step gets along with the memory there is: it fails for no lack of it, stores below the
stack, and loads only from address zero or from where the history has stored. -/
def Confined (past : List Session) (s : Session) : Prop :=
  (∀ f ∈ s.fault?, ¬ f.lacksMemory) ∧ s.StoresBelow ∧
    ∀ i ∈ s.instruction?, i.opcode = .rvalue → i.target = 0 ∨ i.target ∈ addresses past

instance (past : List Session) (s : Session) : Decidable (s.Confined past) :=
  inferInstanceAs (Decidable (_ ∧ _ ∧ ∀ i ∈ s.instruction?, _))

/-- Two sessions with the same program, the second on the larger machine. -/
structure Twin (k : Nat) (stored : List Nat) (s t : Session) : Prop where
  alike : Alike (Shifted k stored) s t
  ir_eq : t.machine.ir = s.machine.ir
  fetch_eq : ∀ pc w, s.machine.code.fetch pc = .ok w → t.machine.code.fetch pc = .ok w

variable {k : Nat} {stored : List Nat} {s t : Session}

namespace Twin

theorem fetch (h : Twin k stored s t) {w : Word}
    (hw : s.machine.code.fetch s.machine.pc = .ok w) :
    t.machine.code.fetch t.machine.pc = .ok w := by
  rw [h.alike.pc]
  exact h.fetch_eq _ w hw

theorem instruction?_eq (h : Twin k stored s t) {i : Instruction} (hi : s.instruction? = some i) :
    t.instruction? = some i := by
  obtain ⟨w, hw, hd⟩ := instruction?_eq_some_iff.mp hi
  exact instruction?_eq_some_iff.mpr ⟨w, h.fetch hw, hd⟩

theorem store?_eq (h : Twin k stored s t) {a : Nat} {w : Word} (hs : s.store? = some (a, w)) :
    t.store? = some (a, w) := by
  obtain ⟨⟨i, hi, hop⟩, ha, hw⟩ := store?_eq_some_iff.mp hs
  obtain ⟨hv, hlt⟩ := index?_eq_some_iff.mp ha
  have hd := h.alike.data
  have hc := hd.capacity_eq
  refine store?_eq_some_iff.mpr ⟨⟨i, h.instruction?_eq hi, hop⟩, ?_, ?_⟩
  · rw [hd.operand_eq, hv]
    exact index?_eq_some_iff.mpr ⟨rfl, by omega⟩
  · rw [hd.operand_eq, hw]

/-- A step that does not store has the same outcome, or fails for lack of memory. -/
theorem step_agree (h : Twin k stored s t) (hs : s.store? = none)
    (hload : ∀ i ∈ s.instruction?, i.opcode = .rvalue → i.target = 0 ∨ i.target ∈ stored) :
    Agree (fun f => f.lacksMemory) (Alike (Shifted k stored)) (step s) (step t) := by
  refine h.alike.step_agree (h.fetch_eq _)
    (fun f hf => .inl (CodeMemory.lacksMemory_of_fetch_error hf)) fun i w hi => ?_
  have hw := h.alike.fetched w w
  refine execute_agree Shifted.lockstep hw i (fun hop => ?_) (fun hop => ?_)
  · rw [load_apply, load_apply]
    rcases hw.data.load (hload i hi hop) with ⟨v, hd, he⟩ | ⟨f, hd, hf⟩
    · rw [hd, he]; exact .ok v hw
    · rw [hd]; exact .excused hf
  · rw [execute_sto hop]
    cases ha : (s.fetched w).machine.data.index? _ with
    | none => exact .excused rfl
    | some a =>
      have := store?_eq_some_iff.mpr ⟨⟨i, hi, hop⟩, ha, rfl⟩
      rw [hs] at this
      cases this

/-- A step that stores below the stack does the same in both sessions. -/
theorem next_of_store? (h : Twin k stored s t) {a : Nat} {w : Word}
    (hs : s.store? = some (a, w)) (ha : a < s.machine.data.dropTwo.sp) :
    t.fault? = s.fault? ∧ Alike (Shifted k (a :: stored)) s.next t.next := by
  obtain ⟨v, hv, hstep⟩ := step_of_store? hs
  obtain ⟨v', hv', hstep'⟩ := step_of_store? (h.store?_eq hs)
  obtain rfl : v = v' := Except.ok.inj ((h.fetch hv).symm.trans hv')
  unfold fault? next
  rw [hstep, hstep']
  exact ⟨rfl, (h.alike.fetched v v).withData (h.alike.data.dropTwo.store ha w)⟩

end Twin

/-- A step that does not fail for lack of memory fetches a word. -/
theorem exists_fetch_eq_ok (hs : ∀ f ∈ s.fault?, ¬ f.lacksMemory) :
    ∃ w, s.machine.code.fetch s.machine.pc = .ok w := by
  cases hf : s.machine.code.fetch s.machine.pc with
  | ok w => exact ⟨w, rfl⟩
  | error f =>
    have hfault : s.fault? = some f := by
      unfold fault?
      rw [step_of_fetch_error hf]
      rfl
    exact absurd (CodeMemory.lacksMemory_of_fetch_error hf) (hs f hfault)

/-- A confined step has the same outcome in both sessions. -/
theorem next_twin {past : List Session} (h : Twin k (addresses past) s t) (hc : s.Confined past) :
    t.fault? = s.fault? ∧ Twin k (addresses (s :: past)) s.next t.next := by
  obtain ⟨hfault, hbelow, hload⟩ := hc
  obtain ⟨w, hw⟩ := exists_fetch_eq_ok hfault
  obtain ⟨hcode, hir⟩ := next_program hw
  obtain ⟨hcode', hir'⟩ := next_program (h.fetch hw)
  have hnext : t.fault? = s.fault? ∧ Alike (Shifted k (addresses (s :: past))) s.next t.next := by
    cases hst : s.store? with
    | none =>
      rw [addresses_cons_of_none hst]
      exact (h.step_agree hst hload).same hfault
    | some p =>
      obtain ⟨a, v⟩ := p
      rw [addresses_cons_of_some hst]
      exact h.next_of_store? hst (hbelow _ hst)
  refine ⟨hnext.1, hnext.2, ?_, ?_⟩
  · rw [hir, hir']
  · rw [hcode, hcode']; exact h.fetch_eq

/-! ## Runs -/

theorem advance_twin (h : Twin k [] s t) (n : Nat) :
    (∀ m < n, Confined (visited m s) (advance m s)) →
      (∀ m < n, (advance m t).fault? = (advance m s).fault?) ∧
      Twin k (addresses (visited n s)) (advance n s) (advance n t) := by
  induction n with
  | zero => exact fun _ => ⟨nofun, h⟩
  | succ n ih =>
    intro hc
    obtain ⟨hbefore, hn⟩ := ih fun m hm => hc m (Nat.lt_succ_of_lt hm)
    obtain ⟨hlast, hnext⟩ := next_twin hn (hc n (Nat.lt_succ_self n))
    refine ⟨fun m hm => ?_, hnext⟩
    rcases Nat.lt_succ_iff_lt_or_eq.mp hm with hm | rfl
    · exact hbefore m hm
    · exact hlast

/-- Two sessions with the same console, registers, flag and return addresses, the same stack, mark
and count of missed pops, and the same words at the addresses stored to. The stack of the second
lies `k` words higher. -/
structure Scaled (k : Nat) (stored : List Nat) (s t : Session) : Prop where
  console_eq : t.console = s.console
  running_eq : t.machine.running = s.machine.running
  pc_eq : t.machine.pc = s.machine.pc
  ir_eq : t.machine.ir = s.machine.ir
  calls_eq : t.machine.calls = s.machine.calls
  stack_eq : t.machine.data.stack = s.machine.data.stack
  underflows_eq : t.machine.data.underflows = s.machine.data.underflows
  limit_eq : t.machine.data.limit = s.machine.data.limit
  sp_eq : t.machine.data.sp = s.machine.data.sp + k
  load_eq : ∀ a ∈ stored, t.machine.data.load a = s.machine.data.load a

theorem Twin.scaled (h : Twin k stored s t) : Scaled k stored s t where
  console_eq := h.alike.console
  running_eq := h.alike.running
  pc_eq := h.alike.pc
  ir_eq := h.ir_eq
  calls_eq := h.alike.calls
  stack_eq := h.alike.data.stack_eq
  underflows_eq := h.alike.data.underflows_eq
  limit_eq := h.alike.data.limit_eq
  sp_eq := h.alike.data.sp_eq
  load_eq _ ha := h.alike.data.load_eq (.inr ha) (h.alike.data.stored_le _ ha).2

theorem twin_fresh {small large : Config} (hcode : small.codeCapacity ≤ large.codeCapacity)
    (hdata : small.dataCapacity ≤ large.dataCapacity) (hlt : large.dataCapacity < 2 ^ 63)
    {program : Program} (hp : program.length ≤ small.codeCapacity) (console : Console) :
    Twin (large.dataCapacity - small.dataCapacity) [] ⟨.fresh small program, console⟩
      ⟨.fresh large program, console⟩ := by
  refine ⟨⟨Shifted.empty hdata hlt, rfl, rfl, rfl, rfl⟩, rfl, fun pc w hw => ?_⟩
  obtain ⟨hpc, hw⟩ := (CodeMemory.fetch_ofProgram hp).mp hw
  exact (CodeMemory.fetch_ofProgram (by omega)).mpr ⟨by omega, hw⟩

/-- **Capacities are bounds.** Take a program that fits, and a machine whose memories are no smaller
than those of another, its data memory of less than 2^63 words. Run both, step by step, on the same
console. As long as the steps of the smaller machine are confined, each step ends with the same
fault, or none, on both, and both are in the same state but for the place of the stack. -/
theorem capacities_are_bounds {small large : Config}
    (hcode : small.codeCapacity ≤ large.codeCapacity)
    (hdata : small.dataCapacity ≤ large.dataCapacity) (hlt : large.dataCapacity < 2 ^ 63)
    {program : Program} (hp : program.length ≤ small.codeCapacity) :
    ∃ a b, Machine.ofProgram small program = .ok a ∧ Machine.ofProgram large program = .ok b ∧
      ∀ (console : Console) (n : Nat),
        (∀ m < n, Confined (visited m ⟨a, console⟩) (advance m ⟨a, console⟩)) →
        (∀ m < n, (advance m ⟨b, console⟩).fault? = (advance m ⟨a, console⟩).fault?) ∧
        ∀ m ≤ n, Scaled (large.dataCapacity - small.dataCapacity)
          (addresses (visited m ⟨a, console⟩)) (advance m ⟨a, console⟩)
          (advance m ⟨b, console⟩) := by
  refine ⟨_, _, Machine.ofProgram_eq_ok_iff.mpr ⟨hp, rfl⟩,
    Machine.ofProgram_eq_ok_iff.mpr ⟨by omega, rfl⟩, fun console n hc => ?_⟩
  have h := twin_fresh hcode hdata hlt hp console
  refine ⟨(advance_twin h n hc).1, fun m hm => ?_⟩
  exact (advance_twin h m fun l hl => hc l (Nat.lt_of_lt_of_le hl hm)).2.scaled

/-- A program that stores 7, loads it and divides it by zero. -/
def dividing : Program :=
  .assemble [⟨.push, 1⟩, ⟨.push, 7⟩, ⟨.sto, 0⟩, ⟨.rvalue, 1⟩, ⟨.push, 0⟩, ⟨.binary .div, 0⟩]

theorem capacities_are_bounds_dividing :
    let s : Session := ⟨.fresh ⟨6, 4⟩ dividing, .ofBytes [] none⟩
    let t : Session := ⟨.fresh ⟨9, 8⟩ dividing, .ofBytes [] none⟩
    (∀ m < 6, Confined (visited m s) (advance m s)) ∧
      (advance 5 t).fault? = some (.divisionByZero (.code 5)) ∧
      (advance 6 t).machine.data.load 1 = .ok 7 ∧
      Scaled 4 [1] (advance 6 s) (advance 6 t) := by
  intro s t
  have hc : ∀ m < 6, Confined (visited m s) (advance m s) := by decide
  obtain ⟨a, b, ha, hb, h⟩ :=
    @capacities_are_bounds ⟨6, 4⟩ ⟨9, 8⟩ (by decide) (by decide) (by decide) dividing (by decide)
  obtain ⟨-, rfl⟩ := Machine.ofProgram_eq_ok_iff.mp ha
  obtain ⟨-, rfl⟩ := Machine.ofProgram_eq_ok_iff.mp hb
  obtain ⟨hfault, hsame⟩ := h (.ofBytes [] none) 6 hc
  have hlast := hsame 6 (Nat.le_refl 6)
  refine ⟨hc, (hfault 5 (by decide)).trans (by decide), ?_, hlast⟩
  exact (hlast.load_eq 1 (by decide)).trans rfl

end Session

end StackMachine
