import StackMachine.Memory.Code
import StackMachine.Memory.Data
import StackMachine.Program

/-!
# The machine

A machine is a run flag, its two memories and its registers: the program counter `pc`, the
instruction register `ir`, which holds the last word fetched, and the stack of return addresses
(specification, §3).
-/

namespace StackMachine

/-- How many words the two memories hold (§9). -/
structure Config where
  codeCapacity : Nat := 65536
  dataCapacity : Nat := 65536
  deriving DecidableEq, Repr

/-- The state of a machine. -/
structure Machine where
  /-- Set until a halt, or a fault that ends a run. -/
  running : Bool
  code : CodeMemory
  data : DataMemory
  /-- The address of the next instruction. -/
  pc : Nat
  /-- The last word fetched, zero at first. -/
  ir : Word
  /-- The return addresses, latest call first. -/
  calls : List Nat
  deriving DecidableEq, Repr

namespace Machine

/-- The machine that is about to run a program. -/
def ofProgram (config : Config) (program : Program) : Except LoadError Machine :=
  if program.length ≤ config.codeCapacity then
    .ok {
      running := true
      code := .ofProgram program config.codeCapacity
      data := .empty config.dataCapacity
      pc := 0
      ir := 0
      calls := [] }
  else .error (.programTooLarge program.length config.codeCapacity)

/-- The machine that is about to run the program in a file's bytes. -/
def load (config : Config) (bytes : List UInt8) : Except LoadError Machine := do
  ofProgram config (← Program.parse bytes config.codeCapacity)

/-- The address of the instruction being executed, one before the program counter. -/
def site (m : Machine) : Address := .code (m.pc - 1)

end Machine

end StackMachine
