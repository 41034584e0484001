import StackMachine.Fault

/-!
# Instructions

An instruction is one word: the number of its opcode in the upper half, its operand in the lower
(specification, §4.1). `encode` and `decode` are inverse to each other on the words whose upper half
is an opcode; every other word is an invalid opcode.
-/

namespace StackMachine

/-- An opcode and its 16-bit operand. -/
structure Instruction where
  opcode : Opcode
  operand : UInt16
  deriving DecidableEq, Repr

namespace Instruction

/-- The word of an instruction. -/
def encode (i : Instruction) : Word := .ofHalves i.opcode.code i.operand

/-- The instruction of a word. Operands that mean nothing to their opcode are kept. -/
def decode (w : Word) : Except Fault Instruction :=
  match Opcode.ofCode? w.upper with
  | some op => .ok ⟨op, w.lower⟩
  | none => .error (.invalidOpcode w.upper)

/-- The mnemonic, followed by the operand where the opcode takes one. -/
def text (i : Instruction) : String :=
  if i.opcode.takesOperand then i.opcode.mnemonic ++ " " ++ i.operand.toNat.repr
  else i.opcode.mnemonic

/-- The operand as a word. -/
def literal (i : Instruction) : Word := .ofHalf i.operand

/-- The operand as an index into code or data memory. -/
def target (i : Instruction) : Nat := i.operand.toNat

end Instruction

end StackMachine
