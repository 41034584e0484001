import StackMachine.Fault
import StackMachine.Text.Integer
import StackMachine.Text.Token

/-!
# The input port

A read takes the next token of a stream (specification, §6). The port takes the stream line by line
and hands out the tokens of a line one by one; the next line is looked at only when no token is
left. A line that is not UTF-8 is one fault and is dropped whole. A read consumes one token whether
or not it is an integer. Every stream is finite: once its tokens are used up, each further read
finds the input exhausted.

* `nextToken`: the next token, or the fault in its place;
* `read`: the next integer.
-/

namespace StackMachine

/-- What is left of a finite stream of bytes: the lines not looked at, and the tokens of the line in
hand. -/
structure Input where
  lines : List (List UInt8)
  pending : List (List Char)
  deriving DecidableEq, Repr

namespace Input

/-- The port at the start of a stream. -/
def ofBytes (bytes : List UInt8) : Input := ⟨Text.splitLines bytes, []⟩

/-- The characters of a line, if it is UTF-8. -/
def decodeLine? (line : List UInt8) : Option (List Char) :=
  (String.fromUTF8? line.toByteArray).map String.toList

/-- The first token of the given lines. -/
def firstToken : List (List UInt8) → EStateM.Result Fault Input (List Char)
  | [] => .error .inputExhausted ⟨[], []⟩
  | line :: rest =>
    match decodeLine? line with
    | none => .error .undecodableInput ⟨rest, []⟩
    | some text =>
      match Text.tokens text with
      | [] => firstToken rest
      | token :: others => .ok token ⟨rest, others⟩

/-- The next token. -/
def nextToken : EStateM Fault Input (List Char) := fun input =>
  match input.pending with
  | token :: others => .ok token { input with pending := others }
  | [] => firstToken input.lines

/-- The next integer. -/
def read : EStateM Fault Input Word := do
  let token ← nextToken
  match Text.integer? token with
  | some w => pure w
  | none => throw (.invalidInput (String.ofList token))

/-- Adds a line, in the order of arrival, behind those that wait. -/
def feed (input : Input) (line : List UInt8) : Input :=
  { input with lines := input.lines ++ [line] }

/-- Whether the lines that have arrived hold nothing more to read. -/
def awaits (input : Input) : Bool :=
  match input.nextToken with
  | .error .inputExhausted _ => true
  | _ => false

end Input

end StackMachine
