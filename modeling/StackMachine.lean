import StackMachine.Main
import StackMachine.Proofs.Memory
import StackMachine.Proofs.Encoding
import StackMachine.Proofs.ListStack
import StackMachine.Proofs.Frame
import StackMachine.Proofs.Calls
import StackMachine.Proofs.Storage
import StackMachine.Proofs.Agreement
import StackMachine.Proofs.Capacity
import StackMachine.Proofs.Listing
import StackMachine.Proofs.Residue
import StackMachine.Proofs.Arity
import StackMachine.Proofs.Checked
import StackMachine.Proofs.Bounds
import StackMachine.Proofs.Reading
import StackMachine.Proofs.Printing
import StackMachine.Proofs.Numerals
import StackMachine.Proofs.ReadBack
import StackMachine.Proofs.DeadCells
import StackMachine.Proofs.Operations
import StackMachine.Proofs.Subroutine
import StackMachine.Proofs.Forward
import StackMachine.Proofs.Program
import StackMachine.Proofs.Parsing
import StackMachine.Proofs.Runs
import StackMachine.Proofs.Resuming
import StackMachine.Proofs.FullPort
import StackMachine.Proofs.Tracing
import StackMachine.Proofs.Outcome
import StackMachine.Proofs.Underflows
import StackMachine.Proofs.Marks
import StackMachine.Proofs.Outline
import StackMachine.Proofs.Factorial
import StackMachine.Proofs.Table
import StackMachine.Proofs.Layout
import StackMachine.Proofs.Display
