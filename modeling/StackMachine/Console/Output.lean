import StackMachine.Fault

/-!
# The output port

A printed word is its decimal text and a line feed (specification, §6). A port may have a limit; a
write that does not fit keeps the characters that do and fails. What is written is ASCII, so a
character is a byte.
-/

namespace StackMachine

/-- What was written, and how many bytes still fit; a port without `room` has no limit. -/
structure Output where
  written : String
  room : Option Nat
  deriving DecidableEq, Repr

namespace Output

/-- A port that holds at most `room` bytes. -/
def empty (room : Option Nat) : Output := ⟨"", room⟩

/-- The line that prints a word. -/
def line (w : Word) : String := w.decimal ++ "\n"

/-- Writes a text, or as much of it as fits. -/
def write (text : String) : EStateM Fault Output Unit := fun ⟨written, room⟩ =>
  match room with
  | none => .ok () ⟨written ++ text, none⟩
  | some n =>
    if text.length ≤ n then .ok () ⟨written ++ text, some (n - text.length)⟩
    else .error .outputFull ⟨written ++ String.ofList (text.toList.take n), some 0⟩

/-- Writes a word and ends the line. -/
def print (w : Word) : EStateM Fault Output Unit := write (line w)

/-- The text written so far, and the port without it. -/
def drain (o : Output) : String × Output := (o.written, { o with written := "" })

end Output

end StackMachine
