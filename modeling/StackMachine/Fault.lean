import StackMachine.Address
import StackMachine.Opcode

/-!
# Faults

A fault ends a run (specification, §7). `Fault.message` is its text and `Fault.exitStatus` the
status with which a process reports it (§6). Popping an empty operand stack is no fault: it yields
zero (§4.2).
-/

namespace StackMachine

/-- Why a machine cannot go on. An I/O failure of §7 is one at a port: `undecodableInput` at the
input, `outputFull` at the output. -/
inductive Fault where
  /-- A push to `attempted` would touch storage, which reaches up to the mark `limit`. -/
  | stackCollision (attempted : Int) (limit : Nat)
  /-- A push would go past the end of data memory. -/
  | memoryExhausted
  /-- A return, at `site`, without a call. -/
  | returnStackUnderflow (site : Address)
  /-- A word whose upper half is no opcode. -/
  | invalidOpcode (code : UInt16)
  /-- A division or remainder, at `site`, by zero. -/
  | divisionByZero (site : Address)
  /-- A fetch from `site`, which is outside code memory. -/
  | programCounterOutOfRange (site : Address)
  /-- A load or store outside data memory. -/
  | addressOutOfRange (address : Int)
  /-- The input has ended. -/
  | inputExhausted
  /-- The next token on the input is not an integer. -/
  | invalidInput (token : String)
  /-- The next line of input is not UTF-8 text. -/
  | undecodableInput
  /-- The output port has no room for what was to be written. -/
  | outputFull
  deriving DecidableEq, Repr

namespace Fault

/-- The text of a fault, without a line end. -/
def message : Fault → String
  | stackCollision attempted limit =>
    "Stack overflow: stack has reached occupied area of memory (push to " ++ attempted.repr ++
      " at or below " ++ limit.repr ++ ")"
  | memoryExhausted => "Stack overflow: stack has completely consumed memory"
  | returnStackUnderflow site => "Return with an empty call stack at " ++ site.text
  | invalidOpcode code =>
    "Unrecognized opcode " ++ code.toNat.repr ++ " (highest opcode is " ++
      Opcode.maxCode.toNat.repr ++ ")"
  | divisionByZero site => "Division by zero at " ++ site.text
  | programCounterOutOfRange site => "Program counter out of range: " ++ site.text
  | addressOutOfRange address => "Address out of range: " ++ address.repr
  | inputExhausted => "No integer left on input"
  | invalidInput token => "Expected an integer on input, found `" ++ token ++ "`"
  | undecodableInput => "I/O error: stream did not contain valid UTF-8"
  | outputFull => "I/O error: failed to write whole buffer"

/-- An invalid opcode is its own status, as far as a status can hold it; every other fault is 1. -/
def exitStatus : Fault → Nat
  | invalidOpcode code => min (max code.toNat 1) 255
  | _ => 1

end Fault

end StackMachine
