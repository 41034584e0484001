import StackMachine.Proofs.Calls
import StackMachine.Proofs.Code
import StackMachine.Proofs.Console
import StackMachine.Proofs.Encoding
import StackMachine.Proofs.Printing

/-!
# Runs

A run goes on until a step executes a halt or faults, so how it ends can be said with single steps
and without the run flag.

* `Effect`: what an instruction does to the run flag and to the output;
* `maxCode_lt_of_fault?`: only a word whose upper half is no opcode faults as an invalid opcode;
* `Ends`: at which step a run ends, and how; `Ends.unique`: it does so only once;
* `Completes`: how many steps a run makes, and what it yields; `completes_of_run?`, `Ends.run?_eq`:
  this is what is computed;
* `output_advance`: what is printed on the way, at a port without a limit.
-/
namespace StackMachine

theorem DataMemory.push_valid {d : DataMemory} {w : Word} {f : Fault} (h : d.push w = .error f)
    (c : UInt16) : f ≠ .invalidOpcode c := by
  unfold push at h
  split at h
  · cases h
    nofun
  · split at h <;> cases h
    nofun

namespace Session

variable {s t : Session} {f : Fault} {f? : Option Fault} {n m : Nat}

/-! ## Instructions -/

/-- What an instruction with this opcode does besides computing: a halt alone clears the run flag,
and a print alone writes. No instruction faults as an invalid opcode. -/
structure Effect (op : Opcode) (s : Session) (f? : Option Fault) (t : Session) : Prop where
  running_eq : op ≠ .halt → t.running = s.running
  output_eq : op ≠ .print → t.console.output = s.console.output
  valid : ∀ c, f? ≠ some (.invalidOpcode c)

theorem effect_parts (op : Opcode) : Parts op (Effect op) where
  refl _ := ⟨fun _ => rfl, fun _ => rfl, nofun⟩
  trans h h' := ⟨fun hop => (h'.running_eq hop).trans (h.running_eq hop),
    fun hop => (h'.output_eq hop).trans (h.output_eq hop), h'.valid⟩
  pop _ := ⟨fun _ => rfl, fun _ => rfl, nofun⟩
  push w s := by
    rw [push_apply]
    cases hp : s.machine.data.push w with
    | ok d => exact ⟨fun _ => rfl, fun _ => rfl, nofun⟩
    | error f =>
      exact ⟨fun _ => rfl, fun _ => rfl, fun c h => DataMemory.push_valid hp c (Option.some.inj h)⟩
  load address s := by
    rw [load_apply]
    cases hl : s.machine.data.load address with
    | ok w => exact ⟨fun _ => rfl, fun _ => rfl, nofun⟩
    | error f =>
      obtain ⟨-, rfl⟩ := DataMemory.load_error hl
      exact ⟨fun _ => rfl, fun _ => rfl, nofun⟩
  store _ address w s := by
    rw [store_apply, DataMemory.store_eq]
    cases s.machine.data.index? address <;> exact ⟨fun _ => rfl, fun _ => rfl, nofun⟩
  division _ := ⟨fun _ => rfl, fun _ => rfl, nofun⟩
  halt hop _ := ⟨absurd hop, fun _ => rfl, nofun⟩
  jump _ _ _ := ⟨fun _ => rfl, fun _ => rfl, nofun⟩
  call _ _ _ := ⟨fun _ => rfl, fun _ => rfl, nofun⟩
  ret _ s := by
    unfold ret
    dsimp only
    split <;> exact ⟨fun _ => rfl, fun _ => rfl, nofun⟩
  read _ s := by
    unfold read
    dsimp only
    split
    · exact ⟨fun _ => rfl, fun _ => Console.read_ok ‹_›, nofun⟩
    · obtain ⟨houtput, hf⟩ := Console.read_error ‹_›
      refine ⟨fun _ => rfl, fun _ => houtput, ?_⟩
      cases hf <;> nofun
  print hop w s := by
    unfold print
    dsimp only
    split
    · exact ⟨fun _ => rfl, absurd hop, nofun⟩
    · obtain ⟨-, rfl⟩ := Console.print_error ‹_›
      exact ⟨fun _ => rfl, absurd hop, nofun⟩

theorem execute_effect (i : Instruction) (s : Session) :
    Effect i.opcode s (faultOf? (execute i s)) (after (execute i s)) :=
  (effect_parts i.opcode).execute s

/-! ## Steps -/

/-- The next step executes a halt. -/
def Halts (s : Session) : Prop := ∃ n, s.instruction? = some ⟨.halt, n⟩

/-- Only a halt clears the run flag. -/
theorem running_next (h : ¬ s.Halts) : s.next.running = s.running := by
  unfold next
  cases hi : s.instruction? with
  | none =>
    rcases step_of_instruction?_none hi with ⟨f, -, hs⟩ | ⟨w, f, -, -, hs⟩ <;> rw [hs] <;> rfl
  | some i =>
    obtain ⟨w, -, hs⟩ := step_of_instruction? hi
    rw [hs]
    refine (execute_effect i (s.fetched w)).running_eq fun hop => h ⟨i.operand, ?_⟩
    rw [hi, ← hop]

/-- A halt clears the run flag and does not fault. -/
theorem Halts.clears_running (h : s.Halts) : s.fault? = none ∧ s.next.running = false := by
  obtain ⟨n, hi⟩ := h
  obtain ⟨w, -, hs⟩ := step_of_instruction? hi
  unfold fault? next
  rw [hs]
  exact ⟨rfl, rfl⟩

/-- A step faults as an invalid opcode only because of its word. -/
theorem maxCode_lt_of_fault? {c : UInt16} (h : s.fault? = some (.invalidOpcode c)) :
    Opcode.maxCode < c := by
  unfold fault? at h
  rcases step_cases s with ⟨f, hw, hs⟩ | ⟨w, f, -, hd, hs⟩ | ⟨w, i, -, -, hs⟩ <;> rw [hs] at h
  · obtain ⟨-, rfl⟩ := CodeMemory.fetch_eq_error_iff.mp hw
    cases h
  · obtain rfl : f = .invalidOpcode c := Option.some.inj h
    obtain ⟨hmax, hc⟩ := Instruction.decode_eq_error_iff.mp hd
    exact Fault.invalidOpcode.inj hc ▸ hmax
  · exact absurd h ((execute_effect i (s.fetched w)).valid c)

/-- A step succeeds or faults. -/
theorem step_eq (s : Session) :
    (s.fault? = none ∧ step s = .ok () s.next) ∨
    ∃ f, s.fault? = some f ∧ step s = .error f s.next := by
  unfold fault? next
  cases step s with
  | ok _ t => exact .inl ⟨rfl, rfl⟩
  | error f t => exact .inr ⟨f, rfl, rfl⟩

/-! ## The end of a run -/

/-- The run from `s` ends with the step after the first `n`: that one executes a halt or has the
given fault, and none before it does either. -/
structure Ends (s : Session) (n : Nat) (f? : Option Fault) : Prop where
  before : ∀ m < n, (advance m s).fault? = none ∧ ¬ (advance m s).Halts
  fault?_eq : (advance n s).fault? = f?
  halts : f? = none → (advance n s).Halts

theorem Ends.not_lt {g? : Option Fault} (h : s.Ends n f?) (h' : s.Ends m g?) : ¬ n < m := by
  intro hlt
  obtain ⟨hfault, hno⟩ := h'.before n hlt
  rw [h.fault?_eq] at hfault
  exact hno (h.halts hfault)

/-- A run has one end. -/
theorem Ends.unique {g? : Option Fault} (h : s.Ends n f?) (h' : s.Ends m g?) :
    n = m ∧ f? = g? := by
  have hnm := h.not_lt h'
  have hmn := h'.not_lt h
  obtain rfl : n = m := by omega
  exact ⟨rfl, h.fault?_eq.symm.trans h'.fault?_eq⟩

theorem advance_next (n : Nat) (s : Session) : advance n s.next = advance (n + 1) s := by
  induction n with
  | zero => rfl
  | succ n ih =>
    show (advance n s.next).next = _
    rw [ih]
    rfl

/-- A step that neither faults nor halts is followed by the rest of the run. -/
theorem ends_succ_iff : s.Ends (n + 1) f? ↔ s.fault? = none ∧ ¬ s.Halts ∧ s.next.Ends n f? := by
  constructor
  · intro h
    obtain ⟨hfault, hno⟩ := h.before 0 (Nat.zero_lt_succ n)
    refine ⟨hfault, hno, fun m hm => ?_, ?_, ?_⟩ <;> rw [advance_next]
    · exact h.before (m + 1) (Nat.succ_lt_succ hm)
    · exact h.fault?_eq
    · exact h.halts
  · rintro ⟨hfault, hno, h⟩
    refine ⟨fun m hm => ?_, ?_, ?_⟩
    · cases m with
      | zero => exact ⟨hfault, hno⟩
      | succ m =>
        rw [← advance_next]
        exact h.before m (Nat.lt_of_succ_lt_succ hm)
    · rw [← advance_next]
      exact h.fault?_eq
    · rw [← advance_next]
      exact h.halts

theorem Halts.ends (h : s.Halts) : s.Ends 0 none where
  before := nofun
  fault?_eq := h.clears_running.1
  halts _ := h

theorem ends_of_fault? (h : s.fault? = some f) : s.Ends 0 (some f) where
  before := nofun
  fault?_eq := h
  halts := nofun

/-- What a run yields that ends with the step after the first `n`. A fault clears the run flag. -/
def ended (n : Nat) (s : Session) : Option Fault → EStateM.Result Fault Session Unit
  | none => .ok () (advance (n + 1) s)
  | some f => .error f (advance (n + 1) s).stop

theorem ended_next (n : Nat) (s : Session) (f? : Option Fault) :
    ended n s.next f? = ended (n + 1) s f? := by
  cases f? <;> unfold ended <;> rw [advance_next]

theorem run?_of_halted {fuel : Nat} (h : s.running = false) : s.run? fuel = some (.ok () s) := by
  unfold run?
  simp [h]

theorem run?_succ {fuel : Nat} (h : s.running = true) :
    s.run? (fuel + 1) = match step s with
      | .ok _ t => run? fuel t
      | .error f t => some (.error f t.stop) := by
  cases hs : step s <;> rw [run?, if_pos h] <;> simp only [hs]

@[simp] theorem faultOf?_ended (n : Nat) (s : Session) (f? : Option Fault) :
    faultOf? (ended n s f?) = f? := by
  cases f? <;> rfl

@[simp] theorem console_ended (n : Nat) (s : Session) (f? : Option Fault) :
    (after (ended n s f?)).console = (advance (n + 1) s).console := by
  cases f? <;> rfl

/-- The run from `s` makes exactly `n` steps and yields `r`. A halted machine makes none. -/
inductive Completes (s : Session) : Nat → EStateM.Result Fault Session Unit → Prop
  | halted (h : s.running = false) : Completes s 0 (.ok () s)
  | ended {n : Nat} {f? : Option Fault} (hrun : s.running = true) (h : s.Ends n f?) :
    Completes s (n + 1) (ended n s f?)

theorem Completes.unique {r q : EStateM.Result Fault Session Unit} (h : s.Completes n r)
    (h' : s.Completes m q) : n = m ∧ r = q := by
  cases h with
  | halted hrun =>
    cases h' with
    | halted => exact ⟨rfl, rfl⟩
    | ended hrun' =>
      rw [hrun] at hrun'
      cases hrun'
  | ended hrun hends =>
    cases h' with
    | halted hrun' =>
      rw [hrun] at hrun'
      cases hrun'
    | ended _ hends' =>
      obtain ⟨rfl, rfl⟩ := hends.unique hends'
      exact ⟨rfl, rfl⟩

/-- A run goes on after a step that does not fault. -/
theorem Completes.succ {r : EStateM.Result Fault Session Unit} (hrun : s.running = true)
    (hfault : s.fault? = none) (h : s.next.Completes n r) : s.Completes (n + 1) r := by
  cases h with
  | halted hnext =>
    by_cases hhalt : s.Halts
    · exact .ended hrun hhalt.ends
    · rw [running_next hhalt, hrun] at hnext
      cases hnext
  | @ended m f? hnext hends =>
    have hno : ¬ s.Halts := by
      intro hhalt
      rw [hhalt.clears_running.2] at hnext
      cases hnext
    rw [ended_next]
    exact .ended hrun (ends_succ_iff.mpr ⟨hfault, hno, hends⟩)

theorem visited_next (n : Nat) (s : Session) : visited n s.next ++ [s] = visited (n + 1) s := by
  induction n with
  | zero => rfl
  | succ n ih =>
    show advance n s.next :: (visited n s.next ++ [s]) = _
    rw [ih, advance_next]
    rfl

theorem begun_of_halted (fuel : Nat) (h : s.running = false) : begun fuel s = [] := by
  cases fuel <;> simp [begun, h]

/-- A run that yields something has made some number of steps, for which there was fuel. -/
theorem completes_of_run? (fuel : Nat) : ∀ {s : Session} {r : EStateM.Result Fault Session Unit},
    s.run? fuel = some r → ∃ n ≤ fuel, s.Completes n r ∧ begun fuel s = visited n s := by
  have halted (fuel : Nat) {s : Session} {r : EStateM.Result Fault Session Unit}
      (hrun : s.running = false) (h : s.run? fuel = some r) :
      ∃ n ≤ fuel, s.Completes n r ∧ begun fuel s = visited n s := by
    rw [run?_of_halted hrun] at h
    cases h
    exact ⟨0, Nat.zero_le fuel, .halted hrun, begun_of_halted fuel hrun⟩
  induction fuel with
  | zero =>
    intro s r h
    cases hrun : s.running with
    | false => exact halted 0 hrun h
    | true =>
      unfold run? at h
      rw [hrun] at h
      cases h
  | succ fuel ih =>
    intro s r h
    cases hrun : s.running with
    | false => exact halted (fuel + 1) hrun h
    | true =>
      rw [run?_succ hrun] at h
      unfold begun
      rw [if_pos hrun]
      rcases step_eq s with ⟨hfault, hs⟩ | ⟨f, hfault, hs⟩ <;> rw [hs] at h ⊢ <;> dsimp only at h ⊢
      · obtain ⟨n, hn, hcompletes, hbegun⟩ := ih h
        rw [hbegun, visited_next]
        exact ⟨n + 1, Nat.succ_le_succ hn, hcompletes.succ hrun hfault, rfl⟩
      · cases h
        exact ⟨1, Nat.succ_le_succ (Nat.zero_le fuel), .ended hrun (ends_of_fault? hfault), rfl⟩

/-- A run that yields something has ended. -/
theorem run?_eq_some (fuel : Nat) {s : Session} {r : EStateM.Result Fault Session Unit}
    (hrun : s.running = true) (h : s.run? fuel = some r) :
    ∃ n f?, s.Ends n f? ∧ r = ended n s f? := by
  obtain ⟨n, -, hcompletes, -⟩ := completes_of_run? fuel h
  cases hcompletes with
  | halted hhalted =>
    rw [hrun] at hhalted
    cases hhalted
  | ended _ hends => exact ⟨_, _, hends, rfl⟩

/-- A run that ends yields something, given fuel for its steps. -/
theorem Ends.run?_eq : ∀ {n : Nat} {s : Session}, s.Ends n f? → s.running = true →
    ∀ {fuel : Nat}, n < fuel → s.run? fuel = some (ended n s f?) := by
  intro n
  induction n with
  | zero =>
    intro s h hrun fuel hlt
    obtain ⟨fuel, rfl⟩ := Nat.exists_eq_succ_of_ne_zero (Nat.ne_of_gt hlt)
    have hf : s.fault? = f? := h.fault?_eq
    rw [run?_succ hrun]
    rcases step_eq s with ⟨hfault, hs⟩ | ⟨f, hfault, hs⟩ <;> rw [hs] <;> dsimp only <;>
      obtain rfl := hfault.symm.trans hf
    · have hhalt : s.Halts := h.halts rfl
      rw [run?_of_halted hhalt.clears_running.2]
      rfl
    · rfl
  | succ n ih =>
    intro s h hrun fuel hlt
    obtain ⟨fuel, rfl⟩ := Nat.exists_eq_succ_of_ne_zero (Nat.ne_of_gt (Nat.zero_lt_of_lt hlt))
    obtain ⟨hfault, hno, hends⟩ := ends_succ_iff.mp h
    rw [run?_succ hrun]
    rcases step_eq s with ⟨-, hs⟩ | ⟨f, hf, -⟩
    · rw [hs]
      have hgo : s.next.running = true := by rw [running_next hno, hrun]
      exact (ih hends hgo (Nat.lt_of_succ_lt_succ hlt)).trans (congrArg some (ended_next n s f?))
    · rw [hfault] at hf
      cases hf

/-! ## Output -/

/-- The word that the next step prints, if it executes a print: the top of the stack. -/
def print? (s : Session) : Option Word :=
  match s.instruction? with
  | some i => if i.opcode = .print then some (s.machine.data.operand 0) else none
  | none => none

theorem print?_eq_some_iff {w : Word} : s.print? = some w ↔
    (∃ i, s.instruction? = some i ∧ i.opcode = .print) ∧ s.machine.data.operand 0 = w := by
  unfold print?
  cases s.instruction? with
  | none => simp
  | some i => by_cases hop : i.opcode = .print <;> simp [hop]

theorem print?_eq_none_iff :
    s.print? = none ↔ ∀ i, s.instruction? = some i → i.opcode ≠ .print := by
  unfold print?
  cases s.instruction? with
  | none => simp
  | some i => by_cases hop : i.opcode = .print <;> simp [hop]

/-- The words that steps print, in the order of the steps. They began from the given sessions,
latest first. -/
def printed (past : List Session) : List Word := past.reverse.filterMap print?

@[simp] theorem printed_cons (s : Session) (past : List Session) :
    printed (s :: past) = printed past ++ s.print?.toList := by
  unfold printed
  rw [List.reverse_cons, List.filterMap_append]
  cases hp : s.print? <;> simp [hp]

/-- The session at another output port. -/
def withOutput (s : Session) (o : Output) : Session := ⟨s.machine, s.console.input, o⟩

/-- A print takes the top word off the stack and writes it, whatever the port. If the port does not
take it, the word is gone all the same. -/
theorem step_of_print? {w : Word} (h : s.print? = some w) :
    ∃ t : Session, t.machine.pc = s.machine.pc + 1 ∧
      ∀ o, step (s.withOutput o) = match Output.print w o with
        | .ok _ o => .ok () (t.withOutput o)
        | .error f o => .error f (t.withOutput o) := by
  obtain ⟨⟨i, hi, hop⟩, rfl⟩ := print?_eq_some_iff.mp h
  obtain ⟨v, hv, hd⟩ := instruction?_eq_some_iff.mp hi
  refine ⟨(s.fetched v).withData s.machine.data.pop.2, rfl, fun o => ?_⟩
  rw [step_of_decode_ok (s := s.withOutput o) hv hd]
  unfold execute
  rw [hop]
  dsimp only
  rw [pop_bind_apply, DataMemory.pop_eq_operand]
  unfold print Console.print
  simp only [withData, fetched, withOutput]
  cases Output.print (s.machine.data.operand 0) o <;> rfl

/-- At a port without a limit a print succeeds. -/
theorem next_of_print? {w : Word} (h : s.print? = some w) (hroom : s.console.output.room = none) :
    s.fault? = none ∧ s.next.machine.pc = s.machine.pc + 1 ∧
      s.next.console.output = ⟨s.console.output.written ++ Output.line w, none⟩ := by
  obtain ⟨t, hpc, hs⟩ := step_of_print? h
  have hstep : step s = _ := hs s.console.output
  rw [Output.print, Output.write_of_room_none hroom] at hstep
  unfold fault? next
  rw [hstep]
  exact ⟨rfl, hpc, rfl⟩

/-- A step that executes no print writes nothing. -/
theorem output_next_of_print?_none (h : s.print? = none) :
    s.next.console.output = s.console.output := by
  unfold next
  cases hi : s.instruction? with
  | none =>
    rcases step_of_instruction?_none hi with ⟨f, -, hs⟩ | ⟨w, f, -, -, hs⟩ <;> rw [hs] <;> rfl
  | some i =>
    obtain ⟨w, -, hs⟩ := step_of_instruction? hi
    have hop : i.opcode ≠ .print := print?_eq_none_iff.mp h i hi
    rw [hs]
    exact (execute_effect i (s.fetched w)).output_eq hop

theorem output_next (hroom : s.console.output.room = none) :
    s.next.console.output = ⟨s.console.output.written ++ Output.text s.print?.toList, none⟩ := by
  cases hp : s.print? with
  | none =>
    rw [output_next_of_print?_none hp, ← hroom]
    simp
  | some w =>
    rw [(next_of_print? hp hroom).2.2]
    simp

/-- At a port without a limit, what a number of steps adds to the output is the text of the words
that they print. -/
theorem output_advance (hroom : s.console.output.room = none) (n : Nat) :
    (advance n s).console.output =
      ⟨s.console.output.written ++ Output.text (printed (visited n s)), none⟩ := by
  induction n with
  | zero => simp [advance, visited, printed, ← hroom]
  | succ n ih =>
    have hn : (advance n s).console.output.room = none := by rw [ih]
    show (advance n s).next.console.output = _
    rw [output_next hn, ih]
    simp [visited, String.append_assoc]

theorem output_advance_of_empty (hempty : s.console.output = .empty none) (n : Nat) :
    (advance n s).console.output = ⟨Output.text (printed (visited n s)), none⟩ := by
  have hroom : s.console.output.room = none := by rw [hempty]; rfl
  rw [output_advance hroom, hempty]
  exact congrArg (Output.mk · none) String.empty_append

/-- What a run has printed at the end. -/
theorem Completes.output_eq {r : EStateM.Result Fault Session Unit} (h : s.Completes n r)
    (hempty : s.console.output = .empty none) :
    (after r).console.output = ⟨Output.text (printed (visited n s)), none⟩ := by
  cases h with
  | halted => exact hempty
  | ended => rw [console_ended, output_advance_of_empty hempty]

end Session

end StackMachine
