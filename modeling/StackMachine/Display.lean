import StackMachine.Machine
import StackMachine.Table

/-!
# The state of a machine as text

A status line and a table of three tables: the registers, the top of the operand stack, and the
return addresses (specification, §4.3 on tracing). The state is shown alike whether or not a run is
traced.
-/

namespace StackMachine.Machine

/-- How many words of the operand stack are shown. -/
def stackWindow : Nat := 16

/-- The first line: whether the run flag is set. -/
def status (m : Machine) : String := if m.running then "Running." else "Halted."

/-- The last word fetched, as an instruction if it is one. -/
def currentText (m : Machine) : String :=
  match Instruction.decode m.ir with
  | .ok i => i.text
  | .error _ => m.ir.hexadecimal

/-- A table of names, at the right of their column, and values. -/
def listing (title : String) (rows : List (String × String)) : Table :=
  [⟨.right, title.toList, rows.map fun row => [row.1.toList]⟩,
    ⟨.left, "Contents".toList, rows.map fun row => [row.2.toList]⟩]

/-- The registers. -/
def registerTable (m : Machine) : Table :=
  listing "Register" [
    ("PC =", (Address.code m.pc).text),
    ("IR =", m.currentText),
    ("SP =", (Address.data m.data.sp).text),
    ("Limit =", (Address.data m.data.limit).text),
    ("Underflows =", m.data.underflows.repr)]

/-- The top of the operand stack, whose first word an arrow points at. -/
def stackTable (m : Machine) : Table :=
  listing "Address" <| (m.data.top stackWindow).zipIdx.map fun (w, i) =>
    ((if i = 0 then "* --> " else "") ++ "S[" ++ (m.data.sp + i).repr ++ "] =", w.decimal)

/-- The return addresses, oldest first. -/
def callTable (m : Machine) : Table :=
  listing "Address" <| m.calls.reverse.zipIdx.map fun (pc, i) =>
    ("R[" ++ i.repr ++ "] =", pc.repr)

/-- The three tables side by side. -/
def stateTable (m : Machine) : Table :=
  [⟨.left, "Machine".toList, [m.registerTable.draw]⟩,
    ⟨.left, "Operand Stack".toList, [m.stackTable.draw]⟩,
    ⟨.left, "Call Stack".toList, [m.callTable.draw]⟩]

/-- The state of a machine as text. Every line has its line end. -/
def display (m : Machine) : String := m.status ++ "\n" ++ m.stateTable.draw.text

end StackMachine.Machine
