import StackMachine.Proofs.Code
import StackMachine.Proofs.Console
import StackMachine.Proofs.Encoding
import StackMachine.Proofs.Reachable

/-!
# What a failed step leaves

An instruction may fail at its start, after it took its operands, after it read a token, or between
two pushes. Whenever it does, it has done little.

* `Stops`: an instruction that has taken its operands and stopped;
* `execute_stops`: every instruction that fails does so like this, a copy apart;
* `execute_copy_error`: a copy whose second push is refused has done the first;
* `failed_step_residue`: what both leave of a reachable machine.
-/
namespace StackMachine

/-! ## Faults -/

/-- The place that a fault names, if it names one. -/
def Fault.site? : Fault → Option Address
  | .returnStackUnderflow site | .divisionByZero site | .programCounterOutOfRange site => some site
  | _ => none

/-- How many operands an instruction takes off the stack. -/
def Opcode.operands : Opcode → Nat
  | .pop | .copy | .unary _ | .gofalse | .gotrue | .print => 1
  | .sto | .binary _ => 2
  | _ => 0

theorem Opcode.operands_le (op : Opcode) : op.operands ≤ 2 := by
  cases op <;> simp [operands]

namespace Session

open DataMemory

/-! ## Instructions -/

/-- From `s`, an instruction with this opcode stopped with `f` in `t`. It left the memory `d` and
changed nothing else, except that a read may have taken input and a print may have written. The
fault names the instruction, if it names a place, and is never that memory is exhausted. -/
structure Stops (op : Opcode) (d : DataMemory) (s : Session) (f : Fault) (t : Session) : Prop where
  machine_eq : t.machine = { s.machine with data := d }
  input_eq : t.console.input = s.console.input ∨ op = .read
  output_eq : t.console.output = s.console.output ∨ op = .print
  site_eq : ∀ a ∈ f.site?, a = s.machine.site
  not_exhausted : f ≠ .memoryExhausted

variable {op : Opcode} {d : DataMemory} {s t : Session} {f : Fault}

theorem push_error {w : Word} (h : push w s = .error f t) :
    s.machine.data.push w = .error f ∧ t = s := by
  rw [push_apply] at h
  cases hp : s.machine.data.push w with
  | ok d => rw [hp] at h; cases h
  | error g => rw [hp] at h; cases h; exact ⟨rfl, rfl⟩

theorem push_stops (hd : d.Sound) {w : Word} (h : push w (s.withData d) = .error f t) :
    Stops op d s f t := by
  obtain ⟨hp, rfl⟩ := push_error h
  obtain ⟨-, rfl⟩ := DataMemory.push_error hd hp
  exact ⟨rfl, .inl rfl, .inl rfl, nofun, nofun⟩

theorem division_stops (h : faultHere .divisionByZero (s.withData d) = .error f t) :
    Stops op d s f t := by
  cases h
  exact ⟨rfl, .inl rfl, .inl rfl, fun a ha => (Option.some.inj ha).symm, nofun⟩

theorem rvalue_stops (hs : s.machine.data.Sound) {address : Int}
    (h : (load address >>= push) s = .error f t) : Stops op s.machine.data s f t := by
  rcases bind_error h with h | ⟨w, u, hl, h⟩
  · rw [load_apply] at h
    cases hl : s.machine.data.load address with
    | ok w => rw [hl] at h; cases h
    | error g =>
      rw [hl] at h
      cases h
      obtain ⟨-, rfl⟩ := load_error hl
      exact ⟨rfl, .inl rfl, .inl rfl, nofun, nofun⟩
  · rw [load_apply] at hl
    split at hl
    · cases hl
      exact push_stops hs h
    · cases hl

theorem sto_stops {i : Instruction} (hi : i.opcode = .sto) (h : execute i s = .error f t) :
    Stops op (dropped 2 s.machine.data) s f t := by
  rw [execute_sto hi] at h
  split at h
  · cases h
  · cases h
    exact ⟨rfl, .inl rfl, .inl rfl, nofun, nofun⟩

theorem ret_stops (h : ret s = .error f t) : Stops op s.machine.data s f t := by
  unfold ret at h
  dsimp only at h
  split at h
  · cases h
  · cases h
    exact ⟨rfl, .inl rfl, .inl rfl, fun a ha => (Option.some.inj ha).symm, nofun⟩

theorem print_stops {w : Word} (h : print w (s.withData d) = .error f t) :
    Stops .print d s f t := by
  unfold print at h
  dsimp only at h
  split at h
  · cases h
  · cases h
    obtain ⟨hinput, rfl⟩ := Console.print_error ‹_›
    exact ⟨rfl, .inl hinput, .inr rfl, nofun, nofun⟩

theorem read_stops (hs : s.machine.data.Sound) (h : (read >>= push) s = .error f t) :
    Stops .read s.machine.data s f t := by
  rcases bind_error h with h | ⟨w, u, hr, h⟩
  · unfold read at h
    dsimp only at h
    split at h
    · cases h
    · cases h
      obtain ⟨houtput, hf⟩ := Console.read_error ‹_›
      refine ⟨rfl, .inr rfl, .inl houtput, ?_, ?_⟩ <;> cases hf <;> nofun
  · unfold read at hr
    dsimp only at hr
    split at hr
    · cases hr
      obtain ⟨hp, rfl⟩ := push_error h
      obtain ⟨-, rfl⟩ := DataMemory.push_error hs hp
      exact ⟨rfl, .inr rfl, .inl (Console.read_ok ‹_›), nofun, nofun⟩
    · cases hr

/-- An instruction that fails has taken its operands and done nothing else, unless it is a copy. -/
theorem execute_stops (hs : s.machine.data.Sound) {i : Instruction} (hi : i.opcode ≠ .copy)
    (h : execute i s = .error f t) :
    Stops i.opcode (dropped i.opcode.operands s.machine.data) s f t := by
  by_cases hsto : i.opcode = .sto
  · rw [hsto]
    exact sto_stops hsto h
  unfold execute at h
  cases hop : i.opcode <;> rw [hop] at h <;> dsimp only at h
  case halt | label | goto | gosub => cases h
  case push | lvalue => exact push_stops hs h
  case rvalue => exact rvalue_stops hs h
  case pop => cases h
  case sto => exact absurd hop hsto
  case copy => exact absurd hop hi
  case unary op =>
    rw [pop_bind_apply] at h
    exact push_stops hs.pop h
  case binary op =>
    rw [pop_bind_apply, pop_bind_apply] at h
    cases hv : op.eval? _ _ with
    | some w => rw [hv] at h; exact push_stops hs.pop.pop h
    | none => rw [hv] at h; exact division_stops h
  case gofalse | gotrue =>
    rw [pop_bind_apply] at h
    split at h <;> cases h
  case print =>
    rw [pop_bind_apply] at h
    exact print_stops h
  case read => exact read_stops hs h
  case ret => exact ret_stops h

/-- A copy that fails is refused its first push, and has taken its operand, or its second, and has
done the first. -/
theorem execute_copy_error (hs : s.machine.data.Sound) {i : Instruction} (hi : i.opcode = .copy)
    (h : execute i s = .error f t) :
    (t = s.withData s.machine.data.pop.2 ∧
      f = .stackCollision ((s.machine.data.pop.2.sp : Int) - 1) s.machine.data.limit) ∨
    (s.machine.data.limit + 1 < s.machine.data.pop.2.sp ∧
      t = s.withData (s.machine.data.pop.2.pushed s.machine.data.pop.1) ∧
      f = .stackCollision ((s.machine.data.pop.2.sp : Int) - 2) s.machine.data.limit) := by
  unfold execute at h
  rw [hi] at h
  dsimp only at h
  rw [pop_bind_apply] at h
  rcases bind_error h with h | ⟨v, u, hu, h⟩
  · obtain ⟨hp, rfl⟩ := push_error h
    obtain ⟨-, rfl⟩ := DataMemory.push_error hs.pop hp
    exact .inl ⟨rfl, by rw [limit_pop]⟩
  · rw [push_apply] at hu
    cases hfirst : (s.withData s.machine.data.pop.2).machine.data.push s.machine.data.pop.1 with
    | error g => rw [hfirst] at hu; cases hu
    | ok d =>
      rw [hfirst] at hu
      cases hu
      obtain ⟨hlt, rfl⟩ := push_ok hs.pop hfirst
      obtain ⟨hp, rfl⟩ := push_error h
      obtain ⟨-, rfl⟩ := DataMemory.push_error (hs.pop.pushed hlt) hp
      simp only [limit_pop] at hlt
      refine .inr ⟨hlt, rfl, ?_⟩
      simp only [pushed, limit_pop, Fault.stackCollision.injEq, and_true]
      omega

/-! ## Steps -/

/-- The word is a copy, the stack was empty, and it is the second of the two pushes that failed. -/
def CopiedOnce (s : Session) (w : Word) (f : Fault) : Prop :=
  (∃ n, Instruction.decode w = .ok ⟨.copy, n⟩) ∧ s.machine.data.stack = [] ∧
    f = .stackCollision ((s.machine.data.capacity : Int) - 2) s.machine.data.limit

/-- What a step that fetched `w` and failed leaves of the session: at most two words are gone from
the stack, or a copy of the empty stack has left a zero there; storage and the words the stack held
are still in place. -/
structure Residue (s : Session) (w : Word) (f : Fault) (t : Session) : Prop where
  pc_eq : t.machine.pc = s.machine.pc + 1
  ir_eq : t.machine.ir = w
  running_eq : t.machine.running = s.machine.running
  code_eq : t.machine.code = s.machine.code
  calls_eq : t.machine.calls = s.machine.calls
  limit_eq : t.machine.data.limit = s.machine.data.limit
  cells_eq : ∀ a, a ≤ s.machine.data.limit ∨ s.machine.data.sp ≤ a →
    t.machine.data.cells[a]? = s.machine.data.cells[a]?
  stack_eq : ¬ CopiedOnce s w f → ∃ k ≤ 2, t.machine.data.stack = s.machine.data.stack.drop k
  stack_copied : CopiedOnce s w f → t.machine.data.stack = [0]
  input_eq : t.console.input = s.console.input ∨ ∃ n, Instruction.decode w = .ok ⟨.read, n⟩
  output_eq : t.console.output = s.console.output ∨ ∃ n, Instruction.decode w = .ok ⟨.print, n⟩
  site_eq : ∀ a ∈ f.site?, a = .code s.machine.pc

theorem residue_of_decode_error {w : Word} (hd : Instruction.decode w = .error f) :
    Residue s w f (s.fetched w) := by
  have hno : ¬ CopiedOnce s w f := by
    rintro ⟨⟨n, hn⟩, -⟩
    rw [hd] at hn
    cases hn
  obtain ⟨-, rfl⟩ := Instruction.decode_eq_error_iff.mp hd
  exact ⟨rfl, rfl, rfl, rfl, rfl, rfl, fun _ _ => rfl, fun _ => ⟨0, by omega, rfl⟩,
    fun h => absurd h hno, .inl rfl, .inl rfl, nofun⟩

/-- An instruction that takes its operands and stops leaves a residue. -/
theorem Stops.residue {w : Word} {i : Instruction} (hd : Instruction.decode w = .ok i)
    (hi : i.opcode ≠ .copy)
    (h : Stops i.opcode (dropped i.opcode.operands s.machine.data) (s.fetched w) f t) :
    Residue s w f t := by
  have hno : ¬ CopiedOnce s w f := by
    rintro ⟨⟨n, hn⟩, -⟩
    rw [hd] at hn
    cases hn
    exact hi rfl
  have hdecode (op : Opcode) (hop : i.opcode = op) : ∃ n, Instruction.decode w = .ok ⟨op, n⟩ :=
    ⟨i.operand, by rw [hd, ← hop]⟩
  obtain ⟨⟨running, code, data, pc, ir, calls⟩, console⟩ := t
  obtain ⟨hm, hinput, houtput, hsite, -⟩ := h
  cases hm
  exact {
    pc_eq := rfl, ir_eq := rfl, running_eq := rfl, code_eq := rfl, calls_eq := rfl
    limit_eq := limit_dropped _ _
    cells_eq := fun a _ => by rw [cells_dropped]
    stack_eq := fun _ => ⟨_, i.opcode.operands_le, stack_dropped _ _⟩
    stack_copied := fun h => absurd h hno
    input_eq := hinput.imp_right (hdecode .read)
    output_eq := houtput.imp_right (hdecode .print)
    site_eq := hsite }

theorem residue_of_collision {w : Word} {d : DataMemory} {attempted : Int} {limit : Nat}
    (hf : f = .stackCollision attempted limit) (ht : t = (s.fetched w).withData d)
    (hlimit : d.limit = s.machine.data.limit)
    (hcells : ∀ a, a ≤ s.machine.data.limit ∨ s.machine.data.sp ≤ a →
      d.cells[a]? = s.machine.data.cells[a]?)
    (hstack : ¬ CopiedOnce s w f → ∃ k ≤ 2, d.stack = s.machine.data.stack.drop k)
    (hcopied : CopiedOnce s w f → d.stack = [0]) : Residue s w f t := by
  subst ht
  refine ⟨rfl, rfl, rfl, rfl, rfl, hlimit, hcells, hstack, hcopied, .inl rfl, .inl rfl, ?_⟩
  rw [hf]
  nofun

/-- A copy that fails leaves a residue. The word it pushes is the one it popped, so its first push
restores a stack that was not empty. -/
theorem residue_of_copy (hs : s.machine.data.Sound) {w : Word} {i : Instruction}
    (hd : Instruction.decode w = .ok i) (hi : i.opcode = .copy)
    (h : execute i (s.fetched w) = .error f t) : Residue s w f t := by
  have hsp := sp_pop s.machine.data
  have hle := hs.sp_le
  rcases execute_copy_error (s := s.fetched w) hs hi h with ⟨ht, hf⟩ | ⟨hlt, ht, hf⟩
  · refine residue_of_collision hf ht (limit_pop _) (fun a _ => by rw [fetched, cells_pop])
      (fun _ => ⟨1, by omega, by rw [fetched, stack_pop, List.drop_one]⟩) ?_
    rintro ⟨-, hnil, hf'⟩
    rw [stack_eq_nil_iff] at hnil
    rw [hf] at hf'
    simp only [fetched, Fault.stackCollision.injEq] at hf'
    rw [if_neg (by omega)] at hsp
    omega
  · change t = (s.fetched w).withData (s.machine.data.pop.2.pushed s.machine.data.pop.1) at ht
    simp only [fetched] at hf hlt
    by_cases hne : s.machine.data.sp < s.machine.data.capacity
    · rw [pushed_pop hne] at ht
      refine residue_of_collision hf ht rfl (fun _ _ => rfl) (fun _ => ⟨0, by omega, rfl⟩) ?_
      rintro ⟨-, hnil, -⟩
      rw [stack_eq_nil_iff] at hnil
      omega
    · rw [if_neg hne] at hsp
      have hnil : s.machine.data.stack = [] := stack_eq_nil_iff.mpr (by omega)
      have hcopied : CopiedOnce s w f := by
        refine ⟨⟨i.operand, by rw [hd, ← hi]⟩, hnil, ?_⟩
        rw [hf, hsp]
        congr 2
        omega
      refine residue_of_collision hf ht (limit_pop _) (fun a ha => ?_)
        (fun hno => absurd hcopied hno) fun _ => ?_
      · simp only [pushed]
        rw [Array.getElem?_setIfInBounds_ne (by omega), cells_pop]
      · rw [stack_pushed _ _ (by omega) (by rw [capacity_pop]; omega), stack_pop,
          pop_word, hnil]
        rfl

/-- **Residue.** Take a machine with a data memory of less than 2^63 words that some finite sequence
of steps and runs leads to, whatever its program and its consoles, and let its next step fail at any
console. If the program counter is outside code memory, the fault says so and nothing has changed.
Otherwise the step has fetched a word and left a residue. -/
theorem failed_step_residue {config : Config} (hlt : config.dataCapacity < 2 ^ 63)
    {program : Program} {m : Machine} (hm : m.Reachable config program) {console : Console}
    {f : Fault} {t : Session} (h : step ⟨m, console⟩ = .error f t) :
    (m.code.capacity ≤ m.pc ∧ f = .programCounterOutOfRange (.code m.pc) ∧ t = ⟨m, console⟩) ∨
    (m.pc < m.code.capacity ∧
      ∃ w, m.code.words[m.pc]? = some w ∧ Residue ⟨m, console⟩ w f t) := by
  have hs : (⟨m, console⟩ : Session).machine.data.Sound := hm.sound hlt
  have inside {w : Word} (hw : m.code.fetch m.pc = .ok w) (hr : Residue ⟨m, console⟩ w f t) :
      m.pc < m.code.capacity ∧ ∃ w, m.code.words[m.pc]? = some w ∧ Residue ⟨m, console⟩ w f t :=
    ⟨CodeMemory.lt_capacity_of_fetch hw, w, CodeMemory.fetch_eq_ok_iff.mp hw, hr⟩
  rcases step_cases ⟨m, console⟩ with ⟨g, hw, hr⟩ | ⟨w, g, hw, hd, hr⟩ | ⟨w, i, hw, hd, hr⟩ <;>
    rw [hr] at h
  · obtain ⟨hle, rfl⟩ := CodeMemory.fetch_eq_error_iff.mp hw
    cases h
    exact .inl ⟨hle, rfl, rfl⟩
  · cases h
    exact .inr (inside hw (residue_of_decode_error hd))
  · refine .inr (inside hw ?_)
    by_cases hi : i.opcode = .copy
    · exact residue_of_copy hs hd hi h
    · exact (execute_stops (s := fetched _ w) hs hi h).residue hd hi

/-- A copy of the empty stack in a memory with room for one word. -/
def copying : Session := ⟨.fresh ⟨1, 2⟩ (.assemble [⟨.copy, 0⟩]), .ofBytes [] none⟩

theorem failed_step_residue_copying :
    step copying = .error (.stackCollision 0 0) copying.next ∧
      CopiedOnce copying (Instruction.encode ⟨.copy, 0⟩) (.stackCollision 0 0) ∧
      copying.next.machine.data.stack = [0] ∧
      copying.next.machine.pc = 1 ∧
      copying.next.machine.ir = Instruction.encode ⟨.copy, 0⟩ := by
  have hm : copying.machine.Reachable ⟨1, 2⟩ (.assemble [⟨.copy, 0⟩]) :=
    .load (Machine.ofProgram_eq_ok_iff.mpr ⟨by decide, rfl⟩)
  have hstep : step copying = .error (.stackCollision 0 0) copying.next := rfl
  have hcopied : CopiedOnce copying (Instruction.encode ⟨.copy, 0⟩) (.stackCollision 0 0) :=
    ⟨⟨0, rfl⟩, by decide, rfl⟩
  rcases failed_step_residue (by decide) hm hstep with ⟨hle, -⟩ | ⟨-, w, hw, hr⟩
  · exact absurd hle (by decide)
  · obtain rfl : Instruction.encode ⟨.copy, 0⟩ = w := Option.some.inj hw
    exact ⟨hstep, hcopied, hr.stack_copied hcopied, hr.pc_eq, hr.ir_eq⟩

end Session

end StackMachine
