/-!
# Load errors

Why a program file cannot become a machine (specification, §6 and §7). The file may not be readable
at all, which the operating system explains with a number and a text, or its bytes may not be a
program that fits.
-/

namespace StackMachine

/-- Why a file cannot be read: the number of the system's error and the system's text for it. -/
structure ReadFailure where
  number : Nat
  reason : String
  deriving DecidableEq, Repr

namespace ReadFailure

def notFound : ReadFailure := ⟨2, "No such file or directory"⟩
def inputOutput : ReadFailure := ⟨5, "Input/output error"⟩
def accessDenied : ReadFailure := ⟨13, "Permission denied"⟩
def notDirectory : ReadFailure := ⟨20, "Not a directory"⟩
def isDirectory : ReadFailure := ⟨21, "Is a directory"⟩
def nameTooLong : ReadFailure := ⟨36, "File name too long"⟩
def linkLoop : ReadFailure := ⟨40, "Too many levels of symbolic links"⟩

/-- The failures whose text does not depend on who reports them. -/
def known : List ReadFailure :=
  [notFound, inputOutput, accessDenied, notDirectory, isDirectory, nameTooLong, linkLoop]

/-- The failure with a number: a known one, or else one with the given text. -/
def ofNumber (number : Nat) (reason : String) : ReadFailure :=
  (known.find? (·.number == number)).getD ⟨number, reason⟩

/-- The reason and, in brackets, the number. -/
def message (r : ReadFailure) : String :=
  r.reason ++ " (os error " ++ r.number.repr ++ ")"

end ReadFailure

/-- Why a program file cannot be loaded. -/
inductive LoadError where
  | unreadable (failure : ReadFailure)
  /-- After whole words up to `offset`, `trailing` bytes are left. -/
  | truncatedWord (offset trailing : Nat)
  /-- The program has more words than code memory. -/
  | programTooLarge (words capacity : Nat)
  deriving DecidableEq, Repr

/-- The text of a load error, without a line end. -/
def LoadError.message : LoadError → String
  | unreadable failure => "could not read program: " ++ failure.message
  | truncatedWord offset trailing =>
    "truncated word at byte offset " ++ offset.repr ++ ": " ++ trailing.repr ++
      " trailing byte(s)"
  | programTooLarge words capacity =>
    "program of " ++ words.repr ++ " words does not fit in code memory of " ++
      capacity.repr ++ " words"

end StackMachine
