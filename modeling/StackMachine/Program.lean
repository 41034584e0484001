import StackMachine.Instruction
import StackMachine.LoadError

/-!
# Programs and program files

A program is a list of words. Its file is the bytes of these words one after the other, with no
header (specification, §6), so every stream of whole words is a program. A partial word at the end
is an error whatever the capacity; only then is the length looked at.
-/

namespace StackMachine

/-- The words of a program, first to run first. -/
abbrev Program := List Word

namespace Program

/-- The program of a list of instructions. -/
def assemble (instructions : List Instruction) : Program := instructions.map Instruction.encode

/-- The bytes of a program file. -/
def toBytes (program : Program) : List UInt8 := program.flatMap Word.toBytes

/-- The words at the front of a stream, behind those already read, and the bytes left over, which
are fewer than a word's. -/
def takeWords (read : Array Word) : List UInt8 → Array Word × List UInt8
  | a :: b :: c :: d :: rest => takeWords (read.push (.ofBytes a b c d)) rest
  | rest => (read, rest)

/-- The program in a file's bytes, if it fits into the given number of words. -/
def parse (bytes : List UInt8) (capacity : Nat) : Except LoadError Program :=
  match takeWords #[] bytes with
  | (words, []) =>
    if words.size ≤ capacity then .ok words.toList
    else .error (.programTooLarge words.size capacity)
  | (words, rest) => .error (.truncatedWord (4 * words.size) rest.length)

end Program

end StackMachine
