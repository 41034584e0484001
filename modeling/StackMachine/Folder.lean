import StackMachine.LoadError
import StackMachine.Text.Token

/-!
# Reading a file by its path

A folder holds files by name. A path is names between slashes and is followed from the folder, or
from the root if it starts with a slash; `.` stays, `..` goes up, and nothing is known to lie
outside the folder. A path that goes on after a file, or that ends in a slash after one, is an
error, and so is one that ends at a folder.
-/

namespace StackMachine

/-- Files by name. -/
structure Folder where
  files : List (String × List UInt8)
  deriving DecidableEq, Repr

namespace Folder

/-- Where a path has led. -/
inductive Place where
  | inside
  | outside
  | file (bytes : List UInt8)
  deriving DecidableEq, Repr

/-- The longest name and the longest path that a system looks at, in bytes. -/
def maxName : Nat := 255
def maxPath : Nat := 4095

/-- The names of a path. An empty one, as between two slashes, stays where it is. -/
def names (path : String) : List String :=
  (Text.pieces (· = '/') path.toList).map fun name =>
    if name.isEmpty then "." else String.ofList name

/-- Follows one name. -/
def enter (folder : Folder) (place : Place) (name : String) : Except ReadFailure Place :=
  match place with
  | .file _ => .error .notDirectory
  | .inside =>
    if name = "." then .ok .inside
    else if name = ".." then .ok .outside
    else if maxName < name.utf8ByteSize then .error .nameTooLong
    else
      match folder.files.lookup name with
      | some bytes => .ok (.file bytes)
      | none => .error .notFound
  | .outside =>
    if name = "." ∨ name = ".." then .ok .outside
    else if maxName < name.utf8ByteSize then .error .nameTooLong
    else .error .notFound

/-- The bytes of the file at a path. -/
def read (folder : Folder) (path : String) : Except ReadFailure (List UInt8) := do
  if path.isEmpty then throw .notFound
  if maxPath < path.utf8ByteSize then throw .nameTooLong
  let start := if path.startsWith "/" then Place.outside else .inside
  match ← (names path).foldlM folder.enter start with
  | .file bytes => pure bytes
  | .inside | .outside => throw .isDirectory

end Folder

end StackMachine
