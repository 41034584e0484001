import StackMachine.Folder
import StackMachine.Trace

/-!
# The command

The command takes one argument, the path of a program file, and runs the program at the standard
streams (specification, §6). What the program prints is the whole of standard output; everything
else goes to standard error. `runWith?` is the command as a function, from a way to read files,
arguments and input to an `Outcome`; `run?` reads the files of a folder.

The exit status tells how it ended: 0 after a halt, 2 for wrong arguments, 3 for a program that
cannot be loaded, and otherwise the status of the fault.
-/

namespace StackMachine

/-- Why the arguments are refused (§7). -/
inductive UsageError where
  | missingProgram
  | tooManyArguments
  deriving DecidableEq, Repr

/-- The text of a usage error, without a line end. -/
def UsageError.message : UsageError → String
  | missingProgram => "Error: Program input file required"
  | tooManyArguments => "Error: Too many arguments"

namespace Command

/-! ## Arguments and texts -/

/-- The path of the program: the one argument there must be. -/
def programPath : List String → Except UsageError String
  | [] => .error .missingProgram
  | [path] => .ok path
  | _ => .error .tooManyArguments

def statusSuccess : Nat := 0
def statusUsage : Nat := 2
def statusLoad : Nat := 3

/-- What a traced command says before anything else. -/
def banner (traced : Bool) : String := if traced then "Computation Tracing ENABLED\n" else ""

/-- What the command says about wrong arguments. -/
def usageText (e : UsageError) : String :=
  e.message ++ "\nUsage: svm <program.bin>\n" ++
    "Status lines are written to stderr; stdout carries only what the program PRINTs.\n"

/-- What the command says about a program that cannot be loaded. -/
def loadText (path : String) (e : LoadError) : String := path ++ ": " ++ e.message ++ "\n"

/-- What the command says before the first step. -/
def openingText : String := "Beginning execution...\n"

/-- What the command says after the last step. -/
def closingText : Option Fault → String
  | none => "Done.\n"
  | some f => f.message ++ "\n"

/-- The exit status of a run. -/
def closingStatus : Option Fault → Nat
  | none => statusSuccess
  | some f => f.exitStatus

/-! ## The command as a function -/

/-- What a process leaves behind. -/
structure Outcome where
  status : Nat
  stdout : String
  stderr : String
  deriving DecidableEq, Repr

/-- The machine for a file that was or was not read. -/
def load (file : Except ReadFailure (List UInt8)) : Except LoadError Machine :=
  match file with
  | .ok bytes => Machine.load {} bytes
  | .error failure => .error (.unreadable failure)

/-- How a run ended: the output, the log of a traced run, and the fault, if there was one. -/
def ending? (traced : Bool) (fuel : Nat) (s : Session) : Option (String × String × Option Fault) :=
  if traced then
    match Traced.run? fuel (.start s) with
    | none => none
    | some (.ok _ t) => some (t.session.console.output.written, t.log, none)
    | some (.error f t) => some (t.session.console.output.written, t.log, some f)
  else
    match s.run? fuel with
    | none => none
    | some (.ok _ s) => some (s.console.output.written, "", none)
    | some (.error f s) => some (s.console.output.written, "", some f)

/-- Runs the command where `read` yields the bytes of a file or says why it cannot be read. There is
no outcome if the program takes more than `fuel` steps. -/
def runWith? (traced : Bool) (fuel : Nat) (read : String → Except ReadFailure (List UInt8))
    (args : List String) (input : List UInt8) : Option Outcome :=
  match programPath args with
  | .error e => some ⟨statusUsage, "", banner traced ++ usageText e⟩
  | .ok path =>
    match load (read path) with
    | .error e => some ⟨statusLoad, "", banner traced ++ loadText path e⟩
    | .ok machine =>
      match ending? traced fuel ⟨machine, .ofBytes input none⟩ with
      | none => none
      | some (stdout, log, fault?) =>
        some ⟨closingStatus fault?, stdout,
          banner traced ++ openingText ++ log ++ closingText fault?⟩

/-- Runs the command in a folder. -/
def run? (traced : Bool) (fuel : Nat) (folder : Folder) (args : List String)
    (input : List UInt8) : Option Outcome :=
  runWith? traced fuel folder.read args input

end Command

end StackMachine
