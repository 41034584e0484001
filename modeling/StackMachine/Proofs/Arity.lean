import StackMachine.Proofs.Residue

/-!
# What instructions take and put back

An instruction takes its operands off the stack, does what else it has to do, and puts its results
there. How many words each of the two is depends on the opcode alone.

* `Unhindered`: nothing but a push can stop the instruction;
* `execute_unhindered`: it then comes down to the pushes of its results;
* `execute_hindered`: it otherwise fails, and not by a collision;
* `collides_iff`: a push collides exactly if the stack as a whole would grow into storage.
-/
namespace StackMachine

/-! ## Arity -/

/-- How many words an instruction puts on the stack. -/
def Opcode.results : Opcode → Nat
  | .push | .lvalue | .rvalue | .read | .unary _ | .binary _ => 1
  | .copy => 2
  | _ => 0

/-- The operations that have no result where the right operand is zero. -/
def BinaryOp.divides : BinaryOp → Bool
  | .div | .mod => true
  | _ => false

theorem BinaryOp.eval?_eq_none_iff {op : BinaryOp} {l r : Word} :
    op.eval? l r = none ↔ op.divides = true ∧ r = 0 := by
  cases op <;> simp [eval?, divides]

namespace DataMemory

variable {d : DataMemory}

theorem sp_dropped (n : Nat) (h : d.sp ≤ d.capacity) :
    (dropped n d).sp = min (d.sp + n) d.capacity := by
  induction n generalizing d with
  | zero => simp only [dropped]; omega
  | succ n ih =>
    have hsp := sp_pop d
    have hcapacity := capacity_pop d
    rw [dropped, ih (by split at hsp <;> omega)]
    split at hsp <;> omega

/-- How much deeper an instruction with this opcode makes the stack. It takes no more operands than
there are. -/
def deepening (d : DataMemory) (op : Opcode) : Int :=
  max 0 ((d.depth : Int) - op.operands) + op.results - d.depth

end DataMemory

namespace Session

open DataMemory

variable {s : Session} {i : Instruction}

/-! ## Pushes -/

/-- Puts words on the operand stack, first to last. -/
def pushAll : List Word → Exec Unit
  | [] => pure ()
  | w :: ws => do
    push w
    pushAll ws

theorem pushAll_singleton (w : Word) (s : Session) : pushAll [w] s = push w s := by
  show (push w >>= fun _ => pure ()) s = _
  rw [bind_apply]
  cases push w s <;> rfl

/-- Above storage, words can be pushed as long as none of them gets to the mark. The one that does
is refused. -/
theorem faultOf?_pushAll (ws : List Word) (hs : s.machine.data.Sound)
    (hlt : s.machine.data.limit < s.machine.data.sp) :
    faultOf? (pushAll ws s) =
      if s.machine.data.limit + ws.length < s.machine.data.sp then none
      else some (.stackCollision s.machine.data.limit s.machine.data.limit) := by
  induction ws generalizing s with
  | nil => rw [if_pos (by simpa using hlt)]; rfl
  | cons w ws ih =>
    show faultOf? ((push w >>= fun _ => pushAll ws) s) = _
    rw [bind_apply, push_apply, push_eq hs, List.length_cons]
    by_cases hroom : s.machine.data.limit + 1 < s.machine.data.sp
    · have hrest := ih (s := s.withData (s.machine.data.pushed w)) (hs.pushed hroom)
        (by simp only [withData, pushed]; omega)
      rw [if_pos hroom]
      refine hrest.trans ?_
      simp only [withData, pushed]
      congr 1
      rw [eq_iff_iff]
      omega
    · -- The place of the push is the mark itself: the stack ends right above it.
      rw [if_neg hroom, if_neg (by omega)]
      show some _ = some _
      congr 2
      omega

/-! ## Instructions -/

/-- The instruction has what it needs: an address in the memory, a divisor, an integer on the input,
room in the output, a place to return to. -/
def Unhindered (i : Instruction) (s : Session) : Prop :=
  match i.opcode with
  | .rvalue => i.target < s.machine.data.capacity
  | .sto => 0 ≤ (s.machine.data.operand 1).toInt ∧
      (s.machine.data.operand 1).toInt < s.machine.data.capacity
  | .binary op => ¬ (op.divides = true ∧ s.machine.data.operand 0 = 0)
  | .print => ∀ n ∈ s.console.output.room, (Output.line (s.machine.data.operand 0)).length ≤ n
  | .read => ∃ token rest w, s.console.input.nextToken = .ok token rest ∧
      Text.integer? token = some w
  | .ret => s.machine.calls ≠ []
  | _ => True

theorem execute_unary {op : UnaryOp} (hi : i.opcode = .unary op) (s : Session) :
    execute i s = push (op.eval (s.machine.data.operand 0))
      (s.withData (dropped 1 s.machine.data)) := by
  unfold execute
  rw [hi]
  dsimp only
  rw [pop_bind_apply, pop_eq_operand]
  rfl

theorem execute_binary {op : BinaryOp} (hi : i.opcode = .binary op) (s : Session) :
    execute i s =
      match op.eval? (s.machine.data.operand 1) (s.machine.data.operand 0) with
      | some w => push w (s.withData (dropped 2 s.machine.data))
      | none => .error (.divisionByZero s.machine.site) (s.withData (dropped 2 s.machine.data)) := by
  unfold execute
  rw [hi]
  dsimp only
  rw [pop_bind_apply, pop_bind_apply, pop_eq_operand, pop_eq_operand]
  simp only [withData]
  rw [operand_pop, Nat.zero_add]
  cases op.eval? (s.machine.data.operand 1) (s.machine.data.operand 0) <;> rfl

theorem load_of_lt {address : Nat} (h : address < s.machine.data.capacity) :
    ∃ w, load address s = .ok w s := by
  have hw : s.machine.data.cells[address]? = some s.machine.data.cells[address] :=
    Array.getElem?_eq_getElem h
  refine ⟨s.machine.data.cells[address], ?_⟩
  rw [load_apply, load_natCast _ hw]

theorem load_of_le {address : Nat} (h : s.machine.data.capacity ≤ address) :
    load address s = .error (.addressOutOfRange address) s := by
  have hidx : s.machine.data.index? address = none := index?_eq_none_iff.mpr (by omega)
  rw [load_apply]
  unfold DataMemory.load
  simp only [hidx]

theorem read_apply (s : Session) :
    read s = match s.console.input.read with
      | .ok w input => .ok w ⟨s.machine, input, s.console.output⟩
      | .error f input => .error f ⟨s.machine, input, s.console.output⟩ := by
  obtain ⟨m, input, output⟩ := s
  unfold read Console.read
  dsimp only
  cases input.read <;> rfl

theorem read_of_token {token : List Char} {rest : Input} {w : Word}
    (hn : s.console.input.nextToken = .ok token rest) (hw : Text.integer? token = some w) :
    read s = .ok w ⟨s.machine, rest, s.console.output⟩ := by
  rw [read_apply, Input.read_apply, hn]
  simp only [hw]

theorem read_of_no_token
    (h : ¬ ∃ token rest w, s.console.input.nextToken = .ok token rest ∧
      Text.integer? token = some w) :
    ∃ f t, read s = .error f t ∧ Input.ReadFault f := by
  rw [read_apply]
  cases hread : s.console.input.read with
  | error f rest => exact ⟨f, _, rfl, Input.read_error hread⟩
  | ok v rest =>
    rw [Input.read_apply] at hread
    cases hn : s.console.input.nextToken with
    | error f rest => simp [hn] at hread
    | ok token rest =>
      cases hw : Text.integer? token with
      | none => simp [hn, hw] at hread
      | some w => exact absurd ⟨token, rest, w, hn, hw⟩ h

theorem print_of_room {w : Word} {d : DataMemory}
    (h : ∀ n ∈ s.console.output.room, (Output.line w).length ≤ n) :
    ∃ t, print w (s.withData d) = .ok () t := by
  obtain ⟨m, input, written, room⟩ := s
  unfold print Console.print Output.print Output.write
  cases room with
  | none => exact ⟨_, rfl⟩
  | some n =>
    simp only [withData, if_pos (show (Output.line w).length ≤ n from h n rfl)]
    exact ⟨_, rfl⟩

theorem print_of_no_room {w : Word} {d : DataMemory}
    (h : ¬ ∀ n ∈ s.console.output.room, (Output.line w).length ≤ n) :
    ∃ t, print w (s.withData d) = .error .outputFull t := by
  obtain ⟨m, input, written, room⟩ := s
  unfold print Console.print Output.print Output.write
  cases room with
  | none => exact absurd nofun h
  | some n =>
    have hn : ¬ (Output.line w).length ≤ n := fun hle => h fun k hk => by cases hk; exact hle
    simp only [withData, if_neg hn]
    exact ⟨_, rfl⟩

/-- The instruction comes down to the pushes of its results, once it has taken its operands. Only a
store changes the memory in between, and it has no result. -/
def Delivers (op : Opcode) (s : Session) (r : EStateM.Result Fault Session Unit) : Prop :=
  ∃ ws t, ws.length = op.results ∧ r = pushAll ws t ∧
    (ws ≠ [] → t.machine.data = dropped op.operands s.machine.data)

theorem Delivers.nothing {op : Opcode} {t : Session} (h : op.results = 0) :
    Delivers op s (.ok () t) :=
  ⟨[], t, h.symm, rfl, fun hne => absurd rfl hne⟩

theorem Delivers.one {op : Opcode} {t : Session} (h : op.results = 1) (w : Word)
    (ht : t.machine.data = dropped op.operands s.machine.data) : Delivers op s (push w t) :=
  ⟨[w], t, h.symm, (pushAll_singleton w t).symm, fun _ => ht⟩

/-- An instruction that has what it needs takes its operands and then pushes its results. -/
theorem execute_unhindered (h : Unhindered i s) : Delivers i.opcode s (execute i s) := by
  obtain ⟨op, n⟩ := i
  cases op with
  | push | lvalue => exact Delivers.one (t := s) rfl _ rfl
  | rvalue =>
    obtain ⟨w, hw⟩ := load_of_lt (s := s) h
    show Delivers _ s ((load _ >>= push) s)
    rw [bind_apply, hw]
    exact .one rfl w rfl
  | copy =>
    refine ⟨[s.machine.data.pop.1, s.machine.data.pop.1], s.withData s.machine.data.pop.2, rfl, ?_,
      fun _ => rfl⟩
    show (pop >>= fun w => push w >>= fun _ => push w) s = _
    rw [pop_bind_apply]
    show _ = (push _ >>= fun _ => pushAll _) _
    rw [bind_apply, bind_apply]
    cases push s.machine.data.pop.1 (s.withData s.machine.data.pop.2) with
    | ok v t => exact (pushAll_singleton _ t).symm
    | error f t => rfl
  | unary op =>
    rw [execute_unary rfl]
    exact .one rfl _ rfl
  | binary op =>
    rw [execute_binary rfl]
    cases hv : op.eval? (s.machine.data.operand 1) (s.machine.data.operand 0) with
    | some w => exact .one rfl w rfl
    | none => exact absurd (BinaryOp.eval?_eq_none_iff.mp hv) h
  | sto =>
    rw [execute_sto rfl]
    cases ha : s.machine.data.index? (s.machine.data.operand 1).toInt with
    | some a => exact .nothing rfl
    | none => exact absurd h (index?_eq_none_iff.mp ha)
  | gofalse | gotrue =>
    unfold execute
    dsimp only
    rw [pop_bind_apply]
    split <;> exact .nothing rfl
  | print =>
    obtain ⟨t, ht⟩ := print_of_room (d := s.machine.data.pop.2) h
    show Delivers _ s ((pop >>= print) s)
    rw [pop_bind_apply, pop_eq_operand, ht]
    exact .nothing rfl
  | read =>
    obtain ⟨token, rest, w, hn, hw⟩ := h
    show Delivers _ s ((read >>= push) s)
    rw [bind_apply, read_of_token hn hw]
    exact .one rfl w rfl
  | ret =>
    cases hcalls : s.machine.calls with
    | nil => exact absurd hcalls h
    | cons pc calls =>
      show Delivers _ s (ret s)
      unfold ret
      simp only [hcalls]
      exact .nothing rfl
  | halt | pop | label | goto | gosub => exact .nothing rfl

/-- An instruction that has not what it needs fails, but not by a collision. -/
theorem execute_hindered (h : ¬ Unhindered i s) :
    ∃ f t, execute i s = .error f t ∧ ∀ attempted limit, f ≠ .stackCollision attempted limit := by
  obtain ⟨op, n⟩ := i
  cases op with
  | rvalue =>
    have hle : s.machine.data.capacity ≤ (Instruction.mk .rvalue n).target := Nat.le_of_not_lt h
    refine ⟨.addressOutOfRange n.toNat, s, ?_, nofun⟩
    show (load _ >>= push) s = _
    rw [bind_apply, load_of_le hle]
    rfl
  | sto =>
    refine ⟨.addressOutOfRange (s.machine.data.operand 1).toInt, s.withData s.machine.data.dropTwo,
      ?_, nofun⟩
    rw [execute_sto rfl, index?_eq_none_iff.mpr h]
  | binary op =>
    refine ⟨.divisionByZero s.machine.site, s.withData (dropped 2 s.machine.data), ?_, nofun⟩
    rw [execute_binary rfl, BinaryOp.eval?_eq_none_iff.mpr (Decidable.not_not.mp h)]
  | print =>
    obtain ⟨t, ht⟩ := print_of_no_room (d := s.machine.data.pop.2) h
    refine ⟨.outputFull, t, ?_, nofun⟩
    show (pop >>= print) s = _
    rw [pop_bind_apply, pop_eq_operand, ht]
  | read =>
    obtain ⟨f, t, ht, hf⟩ := read_of_no_token h
    refine ⟨f, t, ?_, fun attempted limit => ?_⟩
    · show (read >>= push) s = _
      rw [bind_apply, ht]
    · cases hf <;> nofun
  | ret =>
    have hcalls : s.machine.calls = [] := Decidable.not_not.mp h
    refine ⟨.returnStackUnderflow s.machine.site, s, ?_, nofun⟩
    show ret s = _
    unfold ret
    simp only [hcalls]
  | halt | push | lvalue | pop | copy | unary | label | goto | gofalse | gotrue | gosub =>
    exact absurd trivial h

/-! ## Steps -/

/-- The step of an instruction that has what it needs fails exactly if its results reach down to the
mark from where its operands leave the stack. -/
theorem fault?_of_unhindered (hs : s.machine.data.Sound)
    (hlt : s.machine.data.limit < s.machine.data.sp) (hi : s.instruction? = some i)
    (h : Unhindered i s) :
    s.fault? =
      if s.machine.data.limit + i.opcode.results <
          min (s.machine.data.sp + i.opcode.operands) s.machine.data.capacity then none
      else some (.stackCollision s.machine.data.limit s.machine.data.limit) := by
  have hle := hs.sp_le
  obtain ⟨v, -, hstep⟩ := step_of_instruction? hi
  obtain ⟨ws, t, hlen, hr, hdata⟩ := execute_unhindered (s := s.fetched v) h
  unfold fault?
  rw [hstep, hr, ← hlen]
  by_cases hws : ws = []
  · rw [hws, if_pos (by simp only [List.length_nil]; omega)]
    rfl
  · have hd : t.machine.data = dropped i.opcode.operands s.machine.data := hdata hws
    have hsp := sp_dropped i.opcode.operands hle
    have hpush := faultOf?_pushAll (s := t) ws (by rw [hd]; exact hs.dropped _)
      (by rw [hd, limit_dropped, hsp]; omega)
    rw [hd, limit_dropped, hsp] at hpush
    exact hpush

/-- **Collisions.** Take a machine with a data memory of less than 2^63 words that some finite
sequence of steps and runs leads to, whatever its program and its consoles, and let its stack lie
above the mark. If its next instruction has what it needs, the step fails exactly if the instruction
makes the stack deeper, and so deep that its top would be at or below the mark; the fault is then a
collision at the mark. An instruction that makes the stack no deeper never collides, also if it
lacks what it needs. -/
theorem collides_iff {config : Config} (hdata : config.dataCapacity < 2 ^ 63) {program : Program}
    {m : Machine} (hm : m.Reachable config program) (hlt : m.data.limit < m.data.sp)
    {console : Console} {i : Instruction} (hi : instruction? ⟨m, console⟩ = some i) :
    (Unhindered i ⟨m, console⟩ →
      (fault? ⟨m, console⟩ ≠ none ↔ 0 < i.opcode.results ∧ 0 < m.data.deepening i.opcode ∧
        (m.data.sp : Int) - m.data.deepening i.opcode ≤ m.data.limit) ∧
      ∀ f, fault? ⟨m, console⟩ = some f → f = .stackCollision m.data.limit m.data.limit) ∧
    (m.data.deepening i.opcode ≤ 0 →
      ∀ attempted limit, fault? ⟨m, console⟩ ≠ some (.stackCollision attempted limit)) := by
  have hs : m.data.Sound := hm.sound hdata
  have hle := hs.sp_le
  have hg : (m.data.sp : Int) - m.data.deepening i.opcode =
      min ((m.data.sp : Int) + i.opcode.operands) m.data.capacity - i.opcode.results := by
    unfold deepening depth
    omega
  by_cases h : Unhindered i ⟨m, console⟩
  · have hfault : fault? ⟨m, console⟩ =
        if m.data.limit + i.opcode.results < min (m.data.sp + i.opcode.operands) m.data.capacity
        then none else some (.stackCollision m.data.limit m.data.limit) :=
      fault?_of_unhindered hs hlt hi h
    refine ⟨fun _ => ⟨?_, fun f hf => ?_⟩, fun hflat attempted limit hf => ?_⟩
    · rw [hfault]
      split
      · simp only [ne_eq, not_true_eq_false, false_iff]
        omega
      · simp only [ne_eq, reduceCtorEq, not_false_eq_true, true_iff]
        omega
    · rw [hfault] at hf
      split at hf <;> cases hf
      rfl
    · rw [hfault, if_pos (by omega)] at hf
      cases hf
  · obtain ⟨v, -, hstep⟩ := step_of_instruction? hi
    obtain ⟨f, t, hr, hne⟩ := execute_hindered (s := fetched ⟨m, console⟩ v) h
    refine ⟨fun hun => absurd hun h, fun _ attempted limit hf => hne attempted limit ?_⟩
    unfold fault? at hf
    rw [hstep, hr] at hf
    exact Option.some.inj hf

/-- A program that stores in a data memory of three words and then copies from the empty stack. -/
def copyingAbove : Session :=
  ⟨.fresh ⟨4, 3⟩ (.assemble [⟨.lvalue, 1⟩, ⟨.push, 7⟩, ⟨.sto, 0⟩, ⟨.copy, 0⟩]), .ofBytes [] none⟩

theorem collides_iff_copyingAbove :
    (advance 3 copyingAbove).machine.data.limit = 1 ∧
      (advance 3 copyingAbove).machine.data.sp = 3 ∧
      (advance 3 copyingAbove).machine.data.deepening .copy = 2 ∧
      ∃ f, (advance 3 copyingAbove).fault? = some f ∧ f = .stackCollision 1 1 := by
  have hm : Machine.ofProgram ⟨4, 3⟩ _ = .ok copyingAbove.machine :=
    Machine.ofProgram_eq_ok_iff.mpr ⟨by decide, rfl⟩
  have hreachable := (calls_advance copyingAbove 3).reachable hm
  have hi : (advance 3 copyingAbove).instruction? = some ⟨.copy, 0⟩ := rfl
  obtain ⟨hcollides, -⟩ := collides_iff (by decide) hreachable (by decide) hi
  obtain ⟨hfails, hfault⟩ := hcollides trivial
  obtain ⟨f, hf⟩ := Option.ne_none_iff_exists'.mp (hfails.mpr (by decide))
  exact ⟨rfl, rfl, rfl, f, hf, hfault f hf⟩

end Session

end StackMachine
