import StackMachine.Execution
import StackMachine.Proofs.Memory

/-!
# What a step leaves alone

An action ends in a session whether it succeeds or faults (`after`), so a relation between the
session before and the session after covers both ends.

* `Ensures Q x`: how the action `x` goes; `Parts.execute`: an instruction goes as its parts go;
* `Keeps R x`: the action `x` leads from every session to an `R`-related one;
* `Frame R`: no part of an instruction breaks `R`, a store perhaps apart;
* `execute_keeps`: then no instruction does;
* `step_cases`: the three ways that a step goes;
* `next_program`: a step leaves the program alone;
* `next_data_of_store?`, `next_data_of_store?_none`: what it does to data memory.
-/
namespace StackMachine.Session

variable {α β : Type}

/-- The session after an action, however the action ended. -/
def after : EStateM.Result Fault Session α → Session
  | .ok _ s => s
  | .error _ s => s

@[simp] theorem after_ok (v : α) (s : Session) : after (.ok v s) = s := rfl

@[simp] theorem after_error (f : Fault) (s : Session) :
    after (.error f s : EStateM.Result Fault Session α) = s := rfl

/-- The fault of an action, if it had one. -/
def faultOf? : EStateM.Result Fault Session α → Option Fault
  | .ok _ _ => none
  | .error f _ => some f

/-- The session after the next step, however the step ended. -/
def next (s : Session) : Session := after (step s)

/-- The fault of the next step, if it has one. -/
def fault? (s : Session) : Option Fault := faultOf? (step s)

/-- The instruction that the next step executes, unless fetching or decoding fails. -/
def instruction? (s : Session) : Option Instruction :=
  match fetch s with
  | .ok i _ => some i
  | .error _ _ => none

/-! ## Actions by their equations -/

/-- The session with another data memory. -/
def withData (s : Session) (d : DataMemory) : Session :=
  { s with machine := { s.machine with data := d } }

/-- The session after a word was fetched. -/
def fetched (s : Session) (w : Word) : Session :=
  { s with machine := { s.machine with pc := s.machine.pc + 1, ir := w } }

theorem bind_apply (x : Exec α) (k : α → Exec β) (s : Session) :
    (x >>= k) s = match x s with
      | .ok v t => k v t
      | .error f t => .error f t := by
  show EStateM.bind x k s = _
  unfold EStateM.bind
  cases x s <;> rfl

theorem bind_error {x : Exec α} {k : α → Exec β} {s t : Session} {f : Fault}
    (h : (x >>= k) s = .error f t) :
    x s = .error f t ∨ ∃ v u, x s = .ok v u ∧ k v u = .error f t := by
  rw [bind_apply] at h
  cases hx : x s with
  | ok v u => rw [hx] at h; exact .inr ⟨v, u, rfl, h⟩
  | error g u => rw [hx] at h; cases h; exact .inl rfl

theorem discard_apply (x : Exec α) (s : Session) :
    discard x s = match x s with
      | .ok _ t => .ok () t
      | .error f t => .error f t := by
  show EStateM.map (fun _ => ()) x s = _
  unfold EStateM.map
  cases x s <;> rfl

theorem pop_apply (s : Session) :
    pop s = .ok s.machine.data.pop.1 (s.withData s.machine.data.pop.2) := rfl

theorem pop_bind_apply (k : Word → Exec β) (s : Session) :
    (pop >>= k) s = k s.machine.data.pop.1 (s.withData s.machine.data.pop.2) := by
  rw [bind_apply, pop_apply]

theorem push_apply (w : Word) (s : Session) :
    push w s = match s.machine.data.push w with
      | .ok d => .ok () (s.withData d)
      | .error f => .error f s := rfl

theorem load_apply (address : Int) (s : Session) :
    load address s = match s.machine.data.load address with
      | .ok w => .ok w s
      | .error f => .error f s := rfl

theorem store_apply (address : Int) (w : Word) (s : Session) :
    store address w s = match s.machine.data.store address w with
      | .ok d => .ok () (s.withData d)
      | .error f => .error f s := rfl

/-- Outside code memory a fetch changes nothing. -/
theorem fetch_of_error {s : Session} {f : Fault}
    (hf : s.machine.code.fetch s.machine.pc = .error f) : fetch s = .error f s := by
  unfold fetch
  simp only [hf]

/-- A word that is no instruction is fetched all the same. -/
theorem fetch_of_decode_error {s : Session} {w : Word} {f : Fault}
    (hw : s.machine.code.fetch s.machine.pc = .ok w) (hd : Instruction.decode w = .error f) :
    fetch s = .error f (s.fetched w) := by
  unfold fetch
  simp only [hw, hd]
  rfl

theorem fetch_of_decode_ok {s : Session} {w : Word} {i : Instruction}
    (hw : s.machine.code.fetch s.machine.pc = .ok w) (hd : Instruction.decode w = .ok i) :
    fetch s = .ok i (s.fetched w) := by
  unfold fetch
  simp only [hw, hd]
  rfl

/-! ## How actions go -/

/-- The action goes like this from every session: `Q` relates the session before it, its fault if it
has one, and the session after it. -/
def Ensures (Q : Session → Option Fault → Session → Prop) (x : Exec α) : Prop :=
  ∀ s, Q s (faultOf? (x s)) (after (x s))

/-- The action leads from every session to a related one, however it ends. -/
def Keeps (R : Session → Session → Prop) (x : Exec α) : Prop := ∀ s, R s (after (x s))

theorem keeps_iff_ensures {R : Session → Session → Prop} {x : Exec α} :
    Keeps R x ↔ Ensures (fun s _ t => R s t) x := Iff.rfl

section
variable {Q : Session → Option Fault → Session → Prop}

theorem Ensures.discard {x : Exec α} (hx : Ensures Q x) : Ensures Q (discard x) := by
  intro s
  have hs := hx s
  rw [discard_apply]
  cases hr : x s <;> rw [hr] at hs <;> exact hs

theorem Ensures.ite (c : Prop) [Decidable c] {x y : Exec α} (hx : Ensures Q x)
    (hy : Ensures Q y) : Ensures Q (if c then x else y) := by
  split
  · exact hx
  · exact hy

theorem Ensures.bind (htrans : ∀ {s t u f?}, Q s none t → Q t f? u → Q s f? u)
    {x : Exec α} {k : α → Exec β} (hx : Ensures Q x) (hk : ∀ v, Ensures Q (k v)) :
    Ensures Q (x >>= k) := by
  intro s
  have hs := hx s
  rw [bind_apply]
  cases hr : x s with
  | ok v t => rw [hr] at hs; exact htrans hs (hk v t)
  | error f t => rw [hr] at hs; exact hs

/-- How the parts go of which an instruction with this opcode is made. The parts that only some
opcodes have are of interest for those alone. -/
structure Parts (op : Opcode) (Q : Session → Option Fault → Session → Prop) : Prop where
  refl : ∀ s, Q s none s
  trans : ∀ {s t u f?}, Q s none t → Q t f? u → Q s f? u
  pop : Ensures Q pop
  push : ∀ w, Ensures Q (push w)
  load : ∀ address, Ensures Q (load address)
  store : op = .sto → ∀ address w, Ensures Q (store address w)
  division : Ensures Q (faultHere .divisionByZero)
  halt : op = .halt → Ensures Q (update ({ · with running := false }))
  jump : op = .goto ∨ op = .gofalse ∨ op = .gotrue → ∀ pc, Ensures Q (jump pc)
  call : op = .gosub → ∀ pc, Ensures Q (call pc)
  ret : op = .ret → Ensures Q ret
  read : op = .read → Ensures Q read
  print : op = .print → ∀ w, Ensures Q (print w)

/-- An instruction goes as its parts go. -/
theorem Parts.execute {i : Instruction} (h : Parts i.opcode Q) : Ensures Q (execute i) := by
  have bind {α : Type} {x : Exec α} {k : α → Exec Unit} (hx : Ensures Q x)
      (hk : ∀ v, Ensures Q (k v)) : Ensures Q (x >>= k) := Ensures.bind h.trans hx hk
  unfold Session.execute
  cases hop : i.opcode with
  | halt => exact h.halt hop
  | push => exact h.push _
  | rvalue => exact bind (h.load _) fun w => h.push w
  | lvalue => exact h.push _
  | pop => exact h.pop.discard
  | sto => exact bind h.pop fun w => bind h.pop fun address => h.store hop _ _
  | copy => exact bind h.pop fun w => bind (h.push w) fun _ => h.push w
  | unary op => exact bind h.pop fun w => h.push _
  | binary op =>
    refine bind h.pop fun right => bind h.pop fun left => ?_
    cases op.eval? left right with
    | some w => exact h.push w
    | none => exact h.division
  | label => exact h.refl
  | goto => exact h.jump (.inl hop) _
  | gofalse => exact bind h.pop fun w => .ite _ (h.jump (.inr (.inl hop)) _) h.refl
  | gotrue => exact bind h.pop fun w => .ite _ (h.jump (.inr (.inr hop)) _) h.refl
  | print => exact bind h.pop fun w => h.print hop w
  | read => exact bind (h.read hop) fun w => h.push w
  | gosub => exact h.call hop _
  | ret => exact h.ret hop

end

/-! ## Relations that actions keep -/

theorem Keeps.discard {R : Session → Session → Prop} {x : Exec α} (hx : Keeps R x) :
    Keeps R (discard x) :=
  Ensures.discard (keeps_iff_ensures.mp hx)

theorem Keeps.bind {R : Session → Session → Prop} (htrans : ∀ s t u, R s t → R t u → R s u)
    {x : Exec α} {k : α → Exec β} (hx : Keeps R x) (hk : ∀ v, Keeps R (k v)) :
    Keeps R (x >>= k) :=
  Ensures.bind (htrans _ _ _) (keeps_iff_ensures.mp hx) fun v => keeps_iff_ensures.mp (hk v)

/-- A relation that no part of an instruction breaks, a store perhaps apart. -/
structure Frame (R : Session → Session → Prop) : Prop where
  trans : ∀ {s t u}, R s t → R t u → R s u
  /-- The run flag, the program counter, the return addresses and the console may change. -/
  control : ∀ (s : Session) (running : Bool) (pc : Nat) (calls : List Nat) (console : Console),
    R s ⟨{ s.machine with running := running, pc := pc, calls := calls }, console⟩
  pop : Keeps R pop
  push : ∀ w, Keeps R (push w)

namespace Frame

variable {R : Session → Session → Prop}

theorem refl (h : Frame R) (s : Session) : R s s := h.control s _ _ _ _

theorem pure (h : Frame R) (v : α) : Keeps R (Pure.pure v : Exec α) := fun s => h.refl s

theorem bind (h : Frame R) {x : Exec α} {k : α → Exec β} (hx : Keeps R x)
    (hk : ∀ v, Keeps R (k v)) : Keeps R (x >>= k) :=
  Keeps.bind (R := R) (fun _ _ _ => h.trans) hx hk

theorem load (h : Frame R) (address : Int) : Keeps R (load address) := by
  intro s
  rw [load_apply]
  split <;> exact h.refl s

theorem faultHere (h : Frame R) (fault : Address → Fault) : Keeps R (faultHere fault) :=
  fun s => h.refl s

theorem jump (h : Frame R) (pc : Nat) : Keeps R (jump pc) := fun s => h.control s _ _ _ _

theorem call (h : Frame R) (pc : Nat) : Keeps R (call pc) := fun s => h.control s _ _ _ _

theorem halt (h : Frame R) : Keeps R (update ({ · with running := false })) :=
  fun s => h.control s _ _ _ _

theorem ret (h : Frame R) : Keeps R ret := by
  intro ⟨m, console⟩
  unfold Session.ret
  dsimp only
  split <;> exact h.control ⟨m, console⟩ _ _ _ _

theorem read (h : Frame R) : Keeps R read := by
  intro s
  unfold Session.read
  dsimp only
  split <;> exact h.control s _ _ _ _

theorem print (h : Frame R) (w : Word) : Keeps R (print w) := by
  intro s
  unfold Session.print
  dsimp only
  split <;> exact h.control s _ _ _ _

end Frame

/-- No instruction breaks a frame, provided stores do not or the instruction is not one. -/
theorem execute_keeps {R : Session → Session → Prop} (h : Frame R) (i : Instruction)
    (hs : i.opcode = .sto → ∀ address w, Keeps R (store address w)) : Keeps R (execute i) :=
  Parts.execute (Q := fun s _ t => R s t) {
    refl := h.refl
    trans := h.trans
    pop := h.pop
    push := h.push
    load := h.load
    store := hs
    division := h.faultHere _
    halt := fun _ => h.halt
    jump := fun _ => h.jump
    call := fun _ => h.call
    ret := fun _ => h.ret
    read := fun _ => h.read
    print := fun _ => h.print }

/-! ## Steps -/

theorem step_apply (s : Session) :
    step s = match fetch s with
      | .ok i t => execute i t
      | .error f t => .error f t := by
  show (fetch >>= execute) s = _
  rw [bind_apply]
  cases fetch s <;> rfl

theorem step_of_fetch_error {s : Session} {f : Fault}
    (hf : s.machine.code.fetch s.machine.pc = .error f) : step s = .error f s := by
  rw [step_apply, fetch_of_error hf]

theorem step_of_decode_error {s : Session} {w : Word} {f : Fault}
    (hw : s.machine.code.fetch s.machine.pc = .ok w) (hd : Instruction.decode w = .error f) :
    step s = .error f (s.fetched w) := by
  rw [step_apply, fetch_of_decode_error hw hd]

theorem step_of_decode_ok {s : Session} {w : Word} {i : Instruction}
    (hw : s.machine.code.fetch s.machine.pc = .ok w) (hd : Instruction.decode w = .ok i) :
    step s = execute i (s.fetched w) := by
  rw [step_apply, fetch_of_decode_ok hw hd]

/-- A step fails in its fetch, fails in its decoding, or executes an instruction. -/
theorem step_cases (s : Session) :
    (∃ f, s.machine.code.fetch s.machine.pc = .error f ∧ step s = .error f s) ∨
    (∃ w f, s.machine.code.fetch s.machine.pc = .ok w ∧ Instruction.decode w = .error f ∧
      step s = .error f (s.fetched w)) ∨
    ∃ w i, s.machine.code.fetch s.machine.pc = .ok w ∧ Instruction.decode w = .ok i ∧
      step s = execute i (s.fetched w) := by
  cases hw : s.machine.code.fetch s.machine.pc with
  | error f => exact .inl ⟨f, rfl, step_of_fetch_error hw⟩
  | ok w =>
    cases hd : Instruction.decode w with
    | error f => exact .inr (.inl ⟨w, f, rfl, hd, step_of_decode_error hw hd⟩)
    | ok i => exact .inr (.inr ⟨w, i, rfl, hd, step_of_decode_ok hw hd⟩)

theorem instruction?_eq_some_iff {s : Session} {i : Instruction} :
    s.instruction? = some i ↔
      ∃ w, s.machine.code.fetch s.machine.pc = .ok w ∧ Instruction.decode w = .ok i := by
  unfold instruction?
  cases hw : s.machine.code.fetch s.machine.pc with
  | error f => simp [fetch_of_error hw]
  | ok w =>
    cases hd : Instruction.decode w with
    | error f => simp [fetch_of_decode_error hw hd, hd]
    | ok j => simp [fetch_of_decode_ok hw hd, hd]

theorem instruction?_of_decode_error {s : Session} {w : Word} {f : Fault}
    (hw : s.machine.code.fetch s.machine.pc = .ok w) (hd : Instruction.decode w = .error f) :
    s.instruction? = none := by
  unfold instruction?
  rw [fetch_of_decode_error hw hd]

theorem step_of_instruction? {s : Session} {i : Instruction} (h : s.instruction? = some i) :
    ∃ w, s.machine.code.fetch s.machine.pc = .ok w ∧ step s = execute i (s.fetched w) := by
  obtain ⟨w, hw, hd⟩ := instruction?_eq_some_iff.mp h
  exact ⟨w, hw, step_of_decode_ok hw hd⟩

/-- Without an instruction a step fails in its fetch. -/
theorem step_of_instruction?_none {s : Session} (h : s.instruction? = none) :
    (∃ f, s.machine.code.fetch s.machine.pc = .error f ∧ step s = .error f s) ∨
    ∃ w f, s.machine.code.fetch s.machine.pc = .ok w ∧ Instruction.decode w = .error f ∧
      step s = .error f (s.fetched w) := by
  rcases step_cases s with hf | hd | ⟨w, i, hw, hd, -⟩
  · exact .inl hf
  · exact .inr hd
  · have hi := instruction?_eq_some_iff.mpr ⟨w, hw, hd⟩
    rw [h] at hi
    cases hi

/-! ## The program across a step -/

theorem frame_program : Frame fun s t =>
    t.machine.code = s.machine.code ∧ t.machine.ir = s.machine.ir where
  trans h₁ h₂ := ⟨h₂.1.trans h₁.1, h₂.2.trans h₁.2⟩
  control _ _ _ _ _ := ⟨rfl, rfl⟩
  pop _ := ⟨rfl, rfl⟩
  push w s := by
    rw [push_apply]
    split <;> exact ⟨rfl, rfl⟩

/-- A step that fetches leaves the word in the instruction register, and changes no code. -/
theorem next_program {s : Session} {w : Word}
    (hw : s.machine.code.fetch s.machine.pc = .ok w) :
    s.next.machine.code = s.machine.code ∧ s.next.machine.ir = w := by
  unfold next
  cases hd : Instruction.decode w with
  | error f => rw [step_of_decode_error hw hd]; exact ⟨rfl, rfl⟩
  | ok i =>
    rw [step_of_decode_ok hw hd]
    refine execute_keeps frame_program i (fun _ address v t => ?_) (s.fetched w)
    rw [store_apply]
    split <;> exact ⟨rfl, rfl⟩

theorem next_code (s : Session) : s.next.machine.code = s.machine.code := by
  cases hw : s.machine.code.fetch s.machine.pc with
  | ok w => exact (next_program hw).1
  | error f =>
    unfold next
    rw [step_of_fetch_error hw]
    rfl

/-! ## Data memory across a step -/

/-- The address and the word of the store that the next step carries out, if it carries out one:
the word is the top of the stack, and the address lies below it. -/
def store? (s : Session) : Option (Nat × Word) :=
  match s.instruction? with
  | some i =>
    if i.opcode = .sto then
      (s.machine.data.index? (s.machine.data.operand 1).toInt).map fun a =>
        (a, s.machine.data.operand 0)
    else none
  | none => none

theorem frame_ofData {D : DataMemory → DataMemory → Prop} (h : DataMemory.Frame D) :
    Frame fun s t => D s.machine.data t.machine.data where
  trans := h.trans
  control s _ _ _ _ := h.refl s.machine.data
  pop s := h.pop s.machine.data
  push w s := by
    rw [push_apply]
    cases hp : s.machine.data.push w with
    | ok d => exact h.push hp
    | error f => exact h.refl s.machine.data

theorem execute_sto {i : Instruction} (hi : i.opcode = .sto) (s : Session) :
    execute i s = match s.machine.data.index? (s.machine.data.operand 1).toInt with
      | some a => .ok () (s.withData (s.machine.data.dropTwo.stored a (s.machine.data.operand 0)))
      | none => .error (.addressOutOfRange (s.machine.data.operand 1).toInt)
          (s.withData s.machine.data.dropTwo) := by
  unfold execute
  rw [hi]
  simp only [bind_apply, pop_apply, store_apply, withData, DataMemory.store_eq]
  rw [DataMemory.pop_eq_operand, DataMemory.pop_eq_operand, DataMemory.operand_pop]
  have hidx : ∀ a, s.machine.data.pop.2.pop.2.index? a = s.machine.data.index? a := by
    intro a; simp only [DataMemory.index?, DataMemory.capacity_pop]
  rw [hidx, Nat.zero_add]
  cases s.machine.data.index? (s.machine.data.operand 1).toInt <;> rfl

/-- A store is carried out if the next instruction is one and its address is in the memory. -/
theorem store?_eq_some_iff {s : Session} {a : Nat} {w : Word} :
    s.store? = some (a, w) ↔ (∃ i, s.instruction? = some i ∧ i.opcode = .sto) ∧
      s.machine.data.index? (s.machine.data.operand 1).toInt = some a ∧
      s.machine.data.operand 0 = w := by
  unfold store?
  cases s.instruction? with
  | none => simp
  | some i =>
    by_cases hop : i.opcode = .sto
    · simp only [hop, if_true, Option.map_eq_some_iff, Prod.mk.injEq, Option.some.injEq]
      constructor
      · rintro ⟨b, hb, rfl, hw⟩; exact ⟨⟨i, rfl, hop⟩, hb, hw⟩
      · rintro ⟨-, ha, hw⟩; exact ⟨a, ha, rfl, hw⟩
    · simp [hop]

/-- A step that stores succeeds, and does nothing else. -/
theorem step_of_store? {s : Session} {a : Nat} {w : Word} (h : s.store? = some (a, w)) :
    ∃ v, s.machine.code.fetch s.machine.pc = .ok v ∧
      step s = .ok () ((s.fetched v).withData (s.machine.data.dropTwo.stored a w)) := by
  obtain ⟨⟨i, hi, hop⟩, ha, rfl⟩ := store?_eq_some_iff.mp h
  obtain ⟨v, hv, hs⟩ := step_of_instruction? hi
  refine ⟨v, hv, ?_⟩
  rw [hs, execute_sto hop]
  simp only [fetched, ha]

theorem next_data_of_store? {s : Session} {a : Nat} {w : Word} (h : s.store? = some (a, w)) :
    a < s.machine.data.capacity ∧ s.next.machine.data = s.machine.data.dropTwo.stored a w := by
  obtain ⟨-, ha, -⟩ := store?_eq_some_iff.mp h
  obtain ⟨v, -, hs⟩ := step_of_store? h
  refine ⟨(DataMemory.index?_eq_some_iff.mp ha).2, ?_⟩
  unfold next
  rw [hs]
  rfl

/-- A step that stores nothing breaks no relation that pops and pushes keep. -/
theorem next_data_of_store?_none {D : DataMemory → DataMemory → Prop} (hD : DataMemory.Frame D)
    {s : Session} (h : s.store? = none) : D s.machine.data s.next.machine.data := by
  unfold next
  cases hi : s.instruction? with
  | none =>
    rcases step_of_instruction?_none hi with ⟨f, -, hs⟩ | ⟨w, f, -, -, hs⟩ <;> rw [hs] <;>
      exact hD.refl _
  | some i =>
    obtain ⟨w, -, hs⟩ := step_of_instruction? hi
    rw [hs]
    by_cases hop : i.opcode = .sto
    · simp only [store?, hi, hop, if_true, Option.map_eq_none_iff] at h
      rw [execute_sto hop]
      simp only [fetched, h]
      exact hD.dropTwo _
    · exact execute_keeps (frame_ofData hD) i (fun h => absurd h hop) (s.fetched w)

end StackMachine.Session
