import StackMachine.Proofs.Checked
import StackMachine.Proofs.Control
import StackMachine.Proofs.Residue

/-!
# Bounds

The registers of a reachable machine stay within its two memories.

* `Controlled`: the program counter and the return addresses do; every return address is the one
  behind a call, and `controlled_next` is the step;
* `fault?_ne_memoryExhausted`: no step finds memory exhausted, and `run?_error` carries this to
  runs;
* `reachable_in_bounds`: all bounds of a reachable machine, and with them that no access of its next
  step is out of range and no number wraps, the number of pops that found the stack empty excepted.
-/
namespace StackMachine

/-- There is a call at an address. -/
def CodeMemory.CallAt (code : CodeMemory) (pc : Nat) : Prop :=
  ∃ w n, code.words[pc]? = some w ∧ Instruction.decode w = .ok ⟨.gosub, n⟩

/-! ## Control -/

/-- The program counter is in code memory, at its end, or where a jump can go; the return addresses
are those behind calls. -/
structure Machine.Controlled (config : Config) (m : Machine) : Prop where
  capacity_eq : m.code.capacity = config.codeCapacity
  pc_le : m.pc ≤ max config.codeCapacity 65535
  calls : ∀ r ∈ m.calls, 1 ≤ r ∧ r ≤ config.codeCapacity ∧ m.code.CallAt (r - 1)

theorem Instruction.target_le (i : Instruction) : i.target ≤ 65535 :=
  Nat.le_of_lt_succ i.operand.toNat_lt

namespace Session

variable {config : Config} {program : Program} {s : Session}

/-- Executing the instruction of a word that was fetched keeps control in bounds: the program
counter went past a word of code memory. -/
theorem controlled_execute (h : s.machine.Controlled config) {w : Word}
    (hw : s.machine.code.fetch s.machine.pc = .ok w) {i : Instruction}
    (hi : Instruction.decode w = .ok i) (hcode : s.next.machine.code = s.machine.code)
    (hmoves : Moves i (s.fetched w) s.next) : s.next.machine.Controlled config := by
  have hlt : s.machine.pc < config.codeCapacity :=
    h.capacity_eq ▸ CodeMemory.lt_capacity_of_fetch hw
  have htarget := i.target_le
  have hcapacity : s.next.machine.code.capacity = config.codeCapacity := by
    rw [hcode, h.capacity_eq]
  refine ⟨hcapacity, ?_, ?_⟩
  · cases hmoves with
    | on hsame => rw [hsame.1]; simp only [fetched]; omega
    | jump hpc => omega
    | call _ hpc => omega
    | ret _ hcalls =>
      have hr := (h.calls s.next.machine.pc (by
        rw [show s.machine.calls = _ from hcalls]; exact List.mem_cons_self)).2.1
      omega
  · rw [hcode]
    cases hmoves with
    | on hsame => rw [hsame.2]; exact h.calls
    | jump _ hcalls => rw [hcalls]; exact h.calls
    | call hop _ hcalls =>
      rw [hcalls]
      refine List.forall_mem_cons.mpr ⟨⟨?_, ?_, ?_⟩, h.calls⟩
      · simp only [fetched]; omega
      · simp only [fetched]; omega
      · exact ⟨w, i.operand, CodeMemory.fetch_eq_ok_iff.mp hw, by rw [hi, ← hop]⟩
    | ret _ hcalls =>
      intro r hr
      exact h.calls r (by rw [show s.machine.calls = _ from hcalls]; exact .tail _ hr)

theorem controlled_next (h : s.machine.Controlled config) :
    s.next.machine.Controlled config := by
  rcases step_cases s with ⟨f, -, hs⟩ | ⟨w, f, hw, -, hs⟩ | ⟨w, i, hw, hd, hs⟩
  · unfold next
    rw [hs]
    exact h
  · have hlt := h.capacity_eq ▸ CodeMemory.lt_capacity_of_fetch hw
    unfold next
    rw [hs]
    refine ⟨h.capacity_eq, ?_, h.calls⟩
    simp only [after_error, fetched]
    omega
  · refine controlled_execute h hw hd (next_code s) ?_
    unfold next
    rw [hs]
    exact execute_moves i _

end Session

/-! ## Data memory -/

namespace DataMemory

/-- No operation changes the capacity. -/
theorem frame_capacity : Frame fun d e => e.capacity = d.capacity where
  refl _ := rfl
  trans h h' := h'.trans h
  pop := capacity_pop
  push {d w e} h := by
    unfold push at h
    split at h
    · cases h
    · split at h
      · cases h
      · cases h
        exact Array.size_setIfInBounds

end DataMemory

theorem Session.capacity_next (s : Session) :
    s.next.machine.data.capacity = s.machine.data.capacity := by
  cases hs : s.store? with
  | none => exact next_data_of_store?_none DataMemory.frame_capacity hs
  | some p =>
    rw [(next_data_of_store? hs).2, DataMemory.capacity_stored]
    exact DataMemory.frame_capacity.dropTwo _

namespace Machine

variable {config : Config} {program : Program} {m : Machine}

theorem Reachable.capacity_eq (h : Reachable config program m) :
    m.data.capacity = config.dataCapacity :=
  h.closed (P := fun m => m.data.capacity = config.dataCapacity) (DataMemory.capacity_empty _)
    (fun s ih => (Session.capacity_next s).trans ih) fun _ => id

theorem Reachable.controlled (h : Reachable config program m) : m.Controlled config := by
  refine h.closed (P := Controlled config) ⟨?_, Nat.zero_le _, nofun⟩
    (fun _ => Session.controlled_next) fun _ h => ⟨h.capacity_eq, h.pc_le, h.calls⟩
  exact CodeMemory.capacity_ofProgram _ _

/-- The stack, the mark, the program counter and the return addresses of a machine are within its
memories. -/
structure InBounds (config : Config) (m : Machine) : Prop where
  sp_le : m.data.sp ≤ config.dataCapacity
  sp_pos : 1 ≤ config.dataCapacity → 1 ≤ m.data.sp
  limit_lt : 1 ≤ config.dataCapacity → m.data.limit < config.dataCapacity
  limit_eq_zero : config.dataCapacity = 0 → m.data.limit = 0
  size_eq : m.data.cells.size = config.dataCapacity
  pc_le : m.pc ≤ max config.codeCapacity 65535
  calls : ∀ r ∈ m.calls, 1 ≤ r ∧ r ≤ config.codeCapacity ∧ m.code.CallAt (r - 1)

theorem Reachable.inBounds (hlt : config.dataCapacity < 2 ^ 63) (h : Reachable config program m) :
    m.InBounds config := by
  have hcapacity := h.capacity_eq
  have hcontrolled := h.controlled
  obtain ⟨hsp, hpos, hlimit, -⟩ := h.sound hlt
  rw [hcapacity] at hsp hpos hlimit
  exact {
    sp_le := hsp
    sp_pos := hpos
    limit_lt := fun _ => by omega
    limit_eq_zero := fun _ => by omega
    size_eq := hcapacity
    pc_le := hcontrolled.pc_le
    calls := hcontrolled.calls }

end Machine

/-! ## Exhausted memory -/

namespace Session

/-- In a sound memory a push that is refused is a collision, and nothing else can be exhausted. -/
theorem fault?_ne_memoryExhausted {s : Session} (hs : s.machine.data.Sound) :
    s.fault? ≠ some .memoryExhausted := by
  intro h
  unfold fault? at h
  cases hstep : step s with
  | ok v t => rw [hstep] at h; cases h
  | error f t =>
    rw [hstep] at h
    obtain rfl : f = .memoryExhausted := Option.some.inj h
    rcases step_cases s with ⟨g, hw, hr⟩ | ⟨w, g, -, hd, hr⟩ | ⟨w, i, -, -, hr⟩ <;> rw [hr] at hstep
    · obtain ⟨-, rfl⟩ := CodeMemory.fetch_eq_error_iff.mp hw
      cases hstep
    · cases hstep
      cases (Instruction.decode_eq_error_iff.mp hd).2
    · by_cases hi : i.opcode = .copy
      · rcases execute_copy_error (s := s.fetched w) hs hi hstep with ⟨-, hf⟩ | ⟨-, -, hf⟩ <;>
          cases hf
      · exact (execute_stops (s := s.fetched w) hs hi hstep).not_exhausted rfl

/-- The fault of a run is that of one of its steps. -/
theorem run?_error {P : Session → Prop} (hnext : ∀ s, P s → P s.next) {f : Fault} {t : Session}
    (fuel : Nat) : ∀ {s : Session}, P s → s.run? fuel = some (.error f t) →
      ∃ u, P u ∧ u.fault? = some f := by
  induction fuel with
  | zero =>
    intro s _ h
    unfold run? at h
    split at h <;> cases h
  | succ fuel ih =>
    intro s hs h
    have hn := hnext s hs
    unfold run? at h
    unfold next at hn
    split at h
    · cases hstep : step s with
      | ok v u =>
        rw [hstep] at h hn
        exact ih hn h
      | error g u =>
        rw [hstep] at h
        cases h
        refine ⟨s, hs, ?_⟩
        unfold fault?
        rw [hstep]
        rfl
    · cases h

theorem run?_ne_memoryExhausted {s : Session} (hs : s.machine.data.Sound) {fuel : Nat}
    {t : Session} : s.run? fuel ≠ some (.error .memoryExhausted t) := by
  intro h
  obtain ⟨u, hu, hf⟩ :=
    run?_error (P := fun s => s.machine.data.Sound) (fun _ => sound_next) fuel hs h
  exact fault?_ne_memoryExhausted hu hf

/-- **Bounds.** Take a machine with memories of less than 2^63 words each that some finite sequence
of steps and runs leads to, whatever its program and its consoles, and whether they succeed or
fault. It is in bounds, and its program counter can be advanced. At any console its next step does
what the checked machine does, so no access is out of range and no number wraps, the number of pops
that found the stack empty excepted; and neither a step nor a run ends with exhausted memory. -/
theorem reachable_in_bounds {config : Config} (hdata : config.dataCapacity < 2 ^ 63)
    (hcode : config.codeCapacity < 2 ^ 63) {program : Program} {m : Machine}
    (hm : m.Reachable config program) :
    m.InBounds config ∧ m.pc + 1 < 2 ^ 64 ∧
    ∀ console : Console,
      Checked.step ⟨m, console⟩ = Checked.lift step ⟨m, console⟩ ∧
      fault? ⟨m, console⟩ ≠ some .memoryExhausted ∧
      ∀ fuel t, run? fuel ⟨m, console⟩ ≠ some (.error .memoryExhausted t) := by
  have hs := hm.sound hdata
  have hbounds := hm.inBounds hdata
  have hpc : m.pc + 1 < 2 ^ 64 := by
    have hle := hbounds.pc_le
    omega
  exact ⟨hbounds, hpc, fun console => ⟨Checked.step_eq hs hpc, fault?_ne_memoryExhausted hs,
    fun _ _ => run?_ne_memoryExhausted hs⟩⟩

/-- A program whose subroutine pushes, in a data memory without room for a word. -/
def cramped : Session :=
  ⟨.fresh ⟨4, 1⟩ (.assemble [⟨.gosub, 2⟩, ⟨.halt, 0⟩, ⟨.push, 7⟩, ⟨.ret, 0⟩]), .ofBytes [] none⟩

theorem reachable_in_bounds_cramped :
    (advance 1 cramped).fault? = some (.stackCollision 0 0) ∧
      (advance 2 cramped).machine.calls = [1] ∧
      (advance 2 cramped).machine.InBounds ⟨4, 1⟩ ∧
      Checked.step (advance 2 cramped) = .ok () (advance 3 cramped) ∧
      (advance 3 cramped).machine.pc = 1 := by
  have hm : Machine.ofProgram ⟨4, 1⟩ _ = .ok cramped.machine :=
    Machine.ofProgram_eq_ok_iff.mpr ⟨by decide, rfl⟩
  have hreachable := (calls_advance cramped 2).reachable hm
  obtain ⟨hbounds, -, hstep⟩ := reachable_in_bounds (by decide) (by decide) hreachable
  exact ⟨rfl, rfl, hbounds, (hstep (advance 2 cramped).console).1, rfl⟩

end Session

end StackMachine
