import StackMachine.Proofs.Frame

/-!
# The checked machine

The machine reads and writes an array at addresses it computes, and keeps them in 64-bit registers.
The checked machine does the same, but looks first whether an address is inside the array and a
number fits its register. Where not, it slips, so "no access is out of range and no number wraps" is
a theorem and not a convention. The number of pops that found the stack empty is excepted: it has no
check, for a run may be longer than any register counts.

* `popChk`, `pushChk`, `loadChk`, `storeChk`: the operations of data memory with their checks, and
  what they yield in a sound memory;
* `Checked.step`: a step with its checks;
* `Checked.step_eq`: it does what a step does, if data memory is sound and the program counter fits.
-/
namespace StackMachine

/-! ## Numbers -/

/-- An unsigned 64-bit number, unless it is none. -/
def unsigned64? (n : Nat) : Option Nat := if n < 2 ^ 64 then some n else none

/-- A signed 64-bit number, unless it is none. -/
def signed64? (n : Int) : Option Int :=
  if -0x8000000000000000 ≤ n ∧ n < 0x8000000000000000 then some n else none

theorem unsigned64?_of_lt {n : Nat} (h : n < 2 ^ 64) : unsigned64? n = some n := by
  unfold unsigned64?
  rw [if_pos h]

theorem signed64?_of_fits {n : Int} (h : -0x8000000000000000 ≤ n ∧ n < 0x8000000000000000) :
    signed64? n = some n := by
  unfold signed64?
  rw [if_pos h]

/-! ## Data memory -/

namespace DataMemory

variable {d : DataMemory}

/-- The word in a cell, if there is such a cell. -/
def readChk (d : DataMemory) (i : Nat) : Option Word := d.cells[i]?

/-- The cells with a word in one of them, if there is such a cell. -/
def writeChk (d : DataMemory) (i : Nat) (w : Word) : Option (Array Word) :=
  if i < d.cells.size then some (d.cells.setIfInBounds i w) else none

theorem writeChk_eq {i : Nat} (h : i < d.capacity) (w : Word) :
    d.writeChk i w = some (d.cells.setIfInBounds i w) :=
  if_pos h

/-- The number of pops that found the stack empty is not checked. -/
def popChk (d : DataMemory) : Option (Word × DataMemory) :=
  if d.sp < d.capacity then do
    let w ← d.readChk d.sp
    let sp ← unsigned64? (d.sp + 1)
    return (w, { d with sp := sp })
  else some (0, { d with underflows := d.underflows + 1 })

def pushChk (d : DataMemory) (w : Word) : Option (Except Fault DataMemory) := do
  let sp ← signed64? d.sp
  let attempted ← signed64? (sp - 1)
  let limit ← signed64? d.limit
  if attempted ≤ limit then return .error (.stackCollision attempted d.limit)
  if attempted < 0 ∨ d.capacity ≤ attempted then return .error .memoryExhausted
  let cells ← d.writeChk attempted.toNat w
  return .ok { d with cells := cells, sp := attempted.toNat }

def loadChk (d : DataMemory) (address : Int) : Option (Except Fault Word) :=
  match d.index? address with
  | some i => (d.readChk i).map .ok
  | none => some (.error (.addressOutOfRange address))

def storeChk (d : DataMemory) (address : Int) (w : Word) : Option (Except Fault DataMemory) :=
  match d.index? address with
  | some i => (d.writeChk i w).map fun cells => .ok ({ d with cells := cells }.recordStore i)
  | none => some (.error (.addressOutOfRange address))

theorem Sound.popChk_eq (h : d.Sound) : d.popChk = some d.pop := by
  unfold popChk
  split
  · rename_i hlt
    have hcap := h.capacity_lt
    have hfits : unsigned64? (d.sp + 1) = some (d.sp + 1) := unsigned64?_of_lt (by omega)
    have hread : d.readChk d.sp = some d.cells[d.sp] := Array.getElem?_eq_getElem hlt
    rw [pop_of_lt hlt, hread, hfits]
    rfl
  · rw [pop_of_le (by omega)]

theorem Sound.pushChk_eq (h : d.Sound) (w : Word) : d.pushChk w = some (d.push w) := by
  have hle := h.sp_le
  have hcap := h.capacity_lt
  have hlimit := h.limit_le
  have hsp : signed64? d.sp = some (d.sp : Int) := signed64?_of_fits (by omega)
  have hattempted : signed64? ((d.sp : Int) - 1) = some ((d.sp : Int) - 1) :=
    signed64?_of_fits (by omega)
  have hmark : signed64? d.limit = some (d.limit : Int) := signed64?_of_fits (by omega)
  unfold pushChk
  simp only [hsp, hattempted, hmark, Option.bind_eq_bind, Option.bind_some]
  rw [push_eq h]
  by_cases hlt : d.limit + 1 < d.sp
  · have hnat : ((d.sp : Int) - 1).toNat = d.sp - 1 := by omega
    rw [if_neg (by omega), if_neg (by omega), if_pos hlt, hnat, writeChk_eq (by omega)]
    rfl
  · rw [if_pos (by omega), if_neg hlt]
    rfl

theorem loadChk_eq (d : DataMemory) (address : Int) :
    d.loadChk address = some (d.load address) := by
  unfold loadChk load
  cases hi : d.index? address with
  | none => rfl
  | some i =>
    obtain ⟨-, hlt⟩ := index?_eq_some_iff.mp hi
    have hread : d.readChk i = some (d.cells.getD i 0) := by
      rw [Array.getD_eq_getD_getElem?]
      unfold readChk
      rw [Array.getElem?_eq_getElem hlt, Option.getD_some]
    dsimp only
    rw [hread]
    rfl

theorem storeChk_eq (d : DataMemory) (address : Int) (w : Word) :
    d.storeChk address w = some (d.store address w) := by
  unfold storeChk store
  cases hi : d.index? address with
  | none => rfl
  | some i =>
    obtain ⟨-, hlt⟩ := index?_eq_some_iff.mp hi
    dsimp only
    rw [writeChk_eq hlt]
    rfl

end DataMemory

/-! ## Instructions -/

/-- Why a checked machine cannot go on. -/
inductive Failure where
  | fault (f : Fault)
  /-- An access was out of range, or a number too large for its register. -/
  | slip
  deriving DecidableEq, Repr

/-- A checked action on a session. -/
abbrev CheckedExec := EStateM Failure Session

namespace Checked

open Session (withData)

variable {α β : Type}

/-- An action that has nothing to check. -/
def lift (x : Exec α) : CheckedExec α := fun s =>
  match x s with
  | .ok v t => .ok v t
  | .error f t => .error (.fault f) t

def pop : CheckedExec Word := fun s =>
  match s.machine.data.popChk with
  | some (w, d) => .ok w (s.withData d)
  | none => .error .slip s

/-- How an operation of data memory ends: as `k` says if it has a result, with its fault, or with a
slip if a check failed. -/
def ending (s : Session) (k : α → EStateM.Result Failure Session β) :
    Option (Except Fault α) → EStateM.Result Failure Session β
  | some (.ok v) => k v
  | some (.error f) => .error (.fault f) s
  | none => .error .slip s

def push (w : Word) : CheckedExec Unit := fun s =>
  ending s (fun d => .ok () (s.withData d)) (s.machine.data.pushChk w)

def load (address : Int) : CheckedExec Word := fun s =>
  ending s (fun w => .ok w s) (s.machine.data.loadChk address)

def store (address : Int) (w : Word) : CheckedExec Unit := fun s =>
  ending s (fun d => .ok () (s.withData d)) (s.machine.data.storeChk address w)

/-- Carries out one instruction, every access checked. -/
def execute (i : Instruction) : CheckedExec Unit :=
  match i.opcode with
  | .push | .lvalue => push i.literal
  | .rvalue => do push (← load i.target)
  | .pop => discard pop
  | .sto => do
    let value ← pop
    let address ← pop
    store address.toInt value
  | .copy => do
    let w ← pop
    push w
    push w
  | .unary op => do push (op.eval (← pop))
  | .binary op => do
    let right ← pop
    let left ← pop
    match op.eval? left right with
    | some w => push w
    | none => lift (Session.faultHere .divisionByZero)
  | .gofalse => do if (← pop) = 0 then lift (Session.jump i.target)
  | .gotrue => do if (← pop) ≠ 0 then lift (Session.jump i.target)
  | .print => do lift (Session.print (← pop))
  | .read => do push (← lift Session.read)
  | .halt | .label | .goto | .gosub | .ret => lift (Session.execute i)

/-- Fetches and decodes the next word, the advance of the program counter checked. -/
def fetch : CheckedExec Instruction := fun s =>
  match unsigned64? (s.machine.pc + 1) with
  | some _ => lift Session.fetch s
  | none => .error .slip s

/-- Executes the next instruction, every access checked. -/
def step : CheckedExec Unit := do execute (← fetch)

/-! ## The checks never fail -/

/-- A checked action that, in a sound memory, does what the action does, and leaves a sound one. -/
structure Safe (x : CheckedExec α) (y : Exec α) : Prop where
  eq_lift : ∀ s : Session, s.machine.data.Sound → x s = lift y s
  sound : Session.Keeps (fun s t => s.machine.data.Sound → t.machine.data.Sound) y

theorem frame_sound :
    Session.Frame fun s t => s.machine.data.Sound → t.machine.data.Sound :=
  Session.frame_ofData (D := fun d e => d.Sound → e.Sound) {
    refl := fun _ => id
    trans := fun h h' => h' ∘ h
    pop := fun _ h => h.pop
    push := fun he h => by
      obtain ⟨hlt, rfl⟩ := DataMemory.push_ok h he
      exact h.pushed hlt }

theorem keeps_sound_store (address : Int) (w : Word) :
    Session.Keeps (fun s t => s.machine.data.Sound → t.machine.data.Sound)
      (Session.store address w) := by
  intro s hs
  rw [Session.store_apply, DataMemory.store_eq]
  cases hi : s.machine.data.index? address with
  | none => exact hs
  | some i => exact hs.stored (DataMemory.index?_eq_some_iff.mp hi).2 w

namespace Safe

theorem lift {y : Exec α}
    (hy : Session.Keeps (fun s t => s.machine.data.Sound → t.machine.data.Sound) y) :
    Safe (Checked.lift y) y :=
  ⟨fun _ _ => rfl, hy⟩

theorem bind {x : CheckedExec α} {y : Exec α} {k : α → CheckedExec β} {l : α → Exec β}
    (hx : Safe x y) (hk : ∀ v, Safe (k v) (l v)) : Safe (x >>= k) (y >>= l) where
  eq_lift s hs := by
    have hsound := hx.sound s hs
    show EStateM.bind x k s = _
    unfold EStateM.bind Checked.lift
    rw [hx.eq_lift s hs, Session.bind_apply]
    unfold Checked.lift
    cases hy : y s with
    | ok v t =>
      rw [hy] at hsound
      exact (hk v).eq_lift t hsound
    | error f t => rfl
  sound := frame_sound.bind hx.sound fun v => (hk v).sound

theorem ite (c : Prop) [Decidable c] {x x' : CheckedExec α} {y y' : Exec α} (hx : Safe x y)
    (hx' : Safe x' y') : Safe (if c then x else x') (if c then y else y') := by
  split
  · exact hx
  · exact hx'

theorem pure (v : α) : Safe (Pure.pure v) (Pure.pure v) := ⟨fun _ _ => rfl, frame_sound.pure v⟩

theorem pop : Safe Checked.pop Session.pop where
  eq_lift s hs := by
    unfold Checked.pop Checked.lift
    rw [hs.popChk_eq, Session.pop_apply]
  sound := frame_sound.pop

theorem push (w : Word) : Safe (Checked.push w) (Session.push w) where
  eq_lift s hs := by
    unfold Checked.push Checked.lift
    rw [hs.pushChk_eq, Session.push_apply]
    cases s.machine.data.push w <;> rfl
  sound := frame_sound.push w

theorem load (address : Int) : Safe (Checked.load address) (Session.load address) where
  eq_lift s _ := by
    unfold Checked.load Checked.lift
    rw [DataMemory.loadChk_eq, Session.load_apply]
    cases s.machine.data.load address <;> rfl
  sound := frame_sound.load address

theorem store (address : Int) (w : Word) : Safe (Checked.store address w) (Session.store address w)
    where
  eq_lift s _ := by
    unfold Checked.store Checked.lift
    rw [DataMemory.storeChk_eq, Session.store_apply]
    cases s.machine.data.store address w <;> rfl
  sound := keeps_sound_store address w

theorem discard {x : CheckedExec α} {y : Exec α} (h : Safe x y) :
    Safe (discard x) (discard y) where
  eq_lift s hs := by
    show EStateM.map _ x s = _
    unfold EStateM.map Checked.lift
    rw [h.eq_lift s hs, Session.discard_apply]
    unfold Checked.lift
    cases y s <;> rfl
  sound := h.sound.discard

end Safe

theorem execute_safe (i : Instruction) : Safe (execute i) (Session.execute i) := by
  have unchecked : Safe (lift (Session.execute i)) (Session.execute i) :=
    .lift (Session.execute_keeps frame_sound i fun _ => keeps_sound_store)
  unfold execute
  cases hop : i.opcode
  case halt | label | goto | gosub | ret => exact unchecked
  all_goals
    unfold Session.execute
    rw [hop]
  case push | lvalue => exact .push _
  case rvalue => exact .bind (.load _) fun w => .push w
  case pop => exact .discard .pop
  case sto => exact .bind .pop fun w => .bind .pop fun address => .store _ _
  case copy => exact .bind .pop fun w => .bind (.push w) fun _ => .push w
  case unary op => exact .bind .pop fun w => .push _
  case binary op =>
    refine .bind .pop fun right => .bind .pop fun left => ?_
    cases op.eval? left right with
    | some w => exact .push w
    | none => exact .lift (frame_sound.faultHere _)
  case gofalse | gotrue =>
    exact .bind .pop fun w => .ite _ (.lift (frame_sound.jump _)) (.pure ())
  case print => exact .bind .pop fun w => .lift (frame_sound.print w)
  case read => exact .bind (.lift frame_sound.read) fun w => .push w

theorem fetch_eq {s : Session} (hpc : s.machine.pc + 1 < 2 ^ 64) :
    fetch s = lift Session.fetch s := by
  unfold fetch
  rw [unsigned64?_of_lt hpc]

theorem fetch_data {s t : Session} {i : Instruction} (h : Session.fetch s = .ok i t) :
    t.machine.data = s.machine.data := by
  unfold Session.fetch at h
  dsimp only at h
  split at h
  · cases h
  · split at h <;> cases h
    rfl

/-- In a sound memory, and with a program counter that can be advanced, no check of a step fails. -/
theorem step_eq {s : Session} (hs : s.machine.data.Sound) (hpc : s.machine.pc + 1 < 2 ^ 64) :
    step s = lift Session.step s := by
  show EStateM.bind fetch execute s = _
  unfold EStateM.bind lift
  rw [fetch_eq hpc, Session.step_apply]
  unfold lift
  cases hf : Session.fetch s with
  | ok i t => exact (execute_safe i).eq_lift t (by rwa [fetch_data hf])
  | error f t => rfl

end Checked

end StackMachine
