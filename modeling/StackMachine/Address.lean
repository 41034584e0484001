/-!
# Addresses

Code and data live in separate memories (specification, §3), so an address says which of the two it
points into. The derived order puts every code address before every data address, and addresses into
one memory in the order of their index.
-/

namespace StackMachine

/-- A place in code memory or in data memory. -/
inductive Address where
  | code (index : Nat)
  | data (index : Nat)
  deriving DecidableEq, Ord, Repr

/-- The memory's name and the index in brackets, as in `CODE[12]`. -/
def Address.text : Address → String
  | .code i => "CODE[" ++ i.repr ++ "]"
  | .data i => "DATA[" ++ i.repr ++ "]"

end StackMachine
