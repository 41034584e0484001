import StackMachine.Fault

/-!
# Data memory

One array of words serves two purposes (specification, §3). Storage grows up from address zero; the
mark `limit` is the highest address stored to. The operand stack grows down from the end of the
array; `sp` is the address of its top, and the capacity when it is empty. The operations are those
of §4.2.

* A push next to or below the mark is refused (`push`), so stored words are safe from the stack.
* A pop from the empty stack yields zero and is counted (`pop`, `underflows`).
* A load or store names any address of the array, the stack's included (`load`, `store`).

The stack as a list, top first, is `stack`.
-/

namespace StackMachine

/-- A number below 2^64 read as a signed 64-bit number. -/
def signed64 (n : Nat) : Int :=
  if n < 0x8000000000000000 then n else (n : Int) - 0x10000000000000000

/-- Storage and operand stack in one array. -/
structure DataMemory where
  cells : Array Word
  /-- The address of the top of the stack. -/
  sp : Nat
  /-- The highest address stored to, zero at first. -/
  limit : Nat
  /-- How many pops found the stack empty. -/
  underflows : Nat
  deriving DecidableEq, Repr

namespace DataMemory

/-- A memory of zeros with an empty stack. -/
def empty (capacity : Nat) : DataMemory := ⟨Array.replicate capacity 0, capacity, 0, 0⟩

/-- The number of words. -/
def capacity (d : DataMemory) : Nat := d.cells.size

/-- The number of words on the stack. -/
def depth (d : DataMemory) : Nat := d.capacity - d.sp

/-- The operand stack, top first. -/
def stack (d : DataMemory) : List Word := (d.cells.extract d.sp d.cells.size).toList

/-- The top of the stack, if it has one. -/
def peek? (d : DataMemory) : Option Word := d.cells[d.sp]?

/-- The first `n` words of the stack. -/
def top (d : DataMemory) (n : Nat) : List Word := (d.cells.extract d.sp (d.sp + n)).toList

/-! ## Stack -/

/-- Puts a word on the stack, unless its place is at or below the mark (§4.2). The mark is compared
as a signed number, so a mark of 2^63 or more lies below every address. -/
@[inline] def push (d : DataMemory) (w : Word) : Except Fault DataMemory :=
  if (d.sp : Int) - 1 ≤ signed64 d.limit then .error (.stackCollision ((d.sp : Int) - 1) d.limit)
  else if d.sp = 0 ∨ d.cells.size < d.sp then .error .memoryExhausted
  else .ok { d with cells := d.cells.setIfInBounds (d.sp - 1) w, sp := d.sp - 1 }

/-- Takes the top word off the stack. The empty stack yields zero, and the pop is counted (§4.2). -/
@[inline] def pop (d : DataMemory) : Word × DataMemory :=
  match d.cells[d.sp]? with
  | some w => (w, { d with sp := d.sp + 1 })
  | none => (0, { d with underflows := d.underflows + 1 })

/-! ## Storage -/

/-- The index of an address, if it lies in the memory. -/
def index? (d : DataMemory) (address : Int) : Option Nat :=
  if 0 ≤ address ∧ address < d.capacity then some address.toNat else none

/-- The word at an address. -/
def load (d : DataMemory) (address : Int) : Except Fault Word :=
  match d.index? address with
  | some i => .ok (d.cells.getD i 0)
  | none => .error (.addressOutOfRange address)

/-- Raises the mark to an address, if it is higher. -/
@[inline] def recordStore (d : DataMemory) (address : Nat) : DataMemory :=
  { d with limit := max d.limit address }

/-- Writes a word at an address and raises the mark to it (§4.2). No look at the stack pointer: the
word may land in the stack. -/
@[inline] def store (d : DataMemory) (address : Int) (w : Word) : Except Fault DataMemory :=
  match d.index? address with
  | some i => .ok ({ d with cells := d.cells.setIfInBounds i w }.recordStore i)
  | none => .error (.addressOutOfRange address)

end DataMemory

end StackMachine
