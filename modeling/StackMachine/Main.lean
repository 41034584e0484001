import StackMachine.Command

/-!
# The executable

The command at the standard streams. Unlike `Command.run?`, which has its whole input beforehand,
it takes a line of input when a step needs one and writes what a step prints before the next step.
-/

namespace StackMachine.Executable

/-- Whether this executable writes the log of a traced run. -/
def tracing : Bool := false

/-- The number of a system error. Some come negated, in 32 bits. -/
def errorNumber (n : UInt32) : Nat := if n < 0x80000000 then n.toNat else (0 - n).toNat

/-- Why a read failed. -/
def readFailure : IO.Error → ReadFailure
  | .noFileOrDirectory _ number reason => .ofNumber (errorNumber number) reason
  | .permissionDenied _ number reason => .ofNumber (errorNumber number) reason
  | .inappropriateType _ number reason => .ofNumber (errorNumber number) reason
  | .invalidArgument _ number reason => .ofNumber (errorNumber number) reason
  | .resourceExhausted _ number reason => .ofNumber (errorNumber number) reason
  | .hardwareFault number reason => .ofNumber (errorNumber number) reason
  | .otherError number reason => .ofNumber (errorNumber number) reason
  | e => ⟨0, toString e⟩

/-- The bytes of a file. -/
def readFile (path : String) : IO (Except ReadFailure (List UInt8)) := do
  try
    return .ok (← IO.FS.readBinFile path).toList
  catch e =>
    return .error (readFailure e)

/-- The rest of a line that starts with the given bytes, latest first. A line is empty only at the
end of the stream. -/
partial def readLine (stream : IO.FS.Stream) (read : List UInt8) : IO (List UInt8) := do
  match (← stream.read 1).toList with
  | [] => return read.reverse
  | b :: _ =>
    if b = Text.newline then return (b :: read).reverse
    else readLine stream (b :: read)

/-- Takes lines of input until the next step can go on. -/
partial def supply (t : Traced) : IO Traced := do
  if !t.session.awaitsInput then return t
  let line ← readLine (← IO.getStdin) []
  if line.isEmpty then return t
  let ⟨⟨machine, ⟨input, output⟩⟩, log⟩ := t
  supply ⟨⟨machine, ⟨input.feed line, output⟩⟩, log⟩

/-- Writes what was printed and logged, and forgets it. -/
def emit (t : Traced) : IO Traced := do
  let ⟨⟨machine, ⟨input, output⟩⟩, log⟩ := t
  let (text, output) := output.drain
  unless text.isEmpty do
    IO.print text
    (← IO.getStdout).flush
  unless log.isEmpty do
    IO.eprint log
  return ⟨⟨machine, ⟨input, output⟩⟩, ""⟩

/-- One step, logged if this executable traces. -/
def step : EStateM Fault Traced Unit := fun t =>
  if tracing then Traced.step t
  else
    let ⟨s, log⟩ := t
    match Session.step s with
    | .ok u s => .ok u ⟨s, log⟩
    | .error f s => .error f ⟨s, log⟩

/-- Runs to the end, and says with what fault, if with one. -/
partial def run (t : Traced) : IO (Option Fault) := do
  if !t.session.running then return none
  match step (← supply t) with
  | .ok _ t => run (← emit t)
  | .error f t =>
    let _ ← emit t
    return some f

/-- The command with its arguments. -/
def command (args : List String) : IO Nat := do
  IO.eprint (Command.banner tracing)
  match Command.programPath args with
  | .error e =>
    IO.eprint (Command.usageText e)
    return Command.statusUsage
  | .ok path =>
    match Command.load (← readFile path) with
    | .error e =>
      IO.eprint (Command.loadText path e)
      return Command.statusLoad
    | .ok machine =>
      IO.eprint Command.openingText
      let session : Session := ⟨machine, .ofBytes [] none⟩
      let fault? ← run (← emit (if tracing then .start session else ⟨session, ""⟩))
      IO.eprint (Command.closingText fault?)
      return Command.closingStatus fault?

end StackMachine.Executable

def main (args : List String) : IO UInt32 := do
  return UInt32.ofNat (← StackMachine.Executable.command args)
