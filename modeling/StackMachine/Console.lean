import StackMachine.Console.Input
import StackMachine.Console.Output

/-!
# The console

A machine's two ports (specification, §6). Reading touches the input alone and printing the output
alone.
-/

namespace StackMachine

/-- An input port and an output port. -/
structure Console where
  input : Input
  output : Output
  deriving DecidableEq, Repr

namespace Console

/-- The console over a stream of bytes, with an output port that holds at most `room` bytes. -/
def ofBytes (bytes : List UInt8) (room : Option Nat) : Console := ⟨.ofBytes bytes, .empty room⟩

/-- Reads the next integer. -/
def read : EStateM Fault Console Word := fun ⟨input, output⟩ =>
  match input.read with
  | .ok w input => .ok w ⟨input, output⟩
  | .error f input => .error f ⟨input, output⟩

/-- Prints a word. -/
def print (w : Word) : EStateM Fault Console Unit := fun ⟨input, output⟩ =>
  match output.print w with
  | .ok u output => .ok u ⟨input, output⟩
  | .error f output => .error f ⟨input, output⟩

end Console

end StackMachine
