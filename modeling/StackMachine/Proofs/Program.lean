import StackMachine.Proofs.Calls
import StackMachine.Proofs.Code
import StackMachine.Proofs.Word

/-!
# Writing and loading programs

A program can be handed over as a list of words, or written as bytes and loaded.

* `parse_toBytes`: parsing the bytes of a program gives the program, if it fits;
* `load_toBytes`: so loading them gives the machine of the program, or refuses it as that does;
* `fetch_decode_assemble`: the instructions of a program are fetched from where they were put;
* `loading_undoes_writing`: the three together, from a list of instructions to a machine.
-/
namespace StackMachine

namespace Program

/-! ## Bytes -/

theorem toBytes_cons (w : Word) (program : Program) :
    toBytes (w :: program) = w.toBytes ++ toBytes program := by
  unfold toBytes
  rw [List.flatMap_cons]

theorem takeWords_toBytes_append (w : Word) (read : Array Word) (rest : List UInt8) :
    takeWords read (w.toBytes ++ rest) = takeWords (read.push w) rest := by
  show takeWords (read.push (.ofBytes _ _ _ _)) rest = _
  rw [Word.ofBytes_toBytes]

/-- Fewer bytes than a word's are left over. -/
theorem takeWords_of_lt {rest : List UInt8} (h : rest.length < 4) (read : Array Word) :
    takeWords read rest = (read, rest) := by
  match rest with
  | [] | [_] | [_, _] | [_, _, _] => rfl
  | _ :: _ :: _ :: _ :: _ => simp only [List.length_cons] at h; omega

/-- The words at the front of the bytes of a program are the program, and what follows is left over
if it is less than a word. -/
theorem takeWords_toBytes (program : Program) {rest : List UInt8} (h : rest.length < 4)
    (read : Array Word) :
    takeWords read (toBytes program ++ rest) = (read ++ program.toArray, rest) := by
  induction program generalizing read with
  | nil =>
    show takeWords read rest = _
    rw [takeWords_of_lt h, Array.append_empty]
  | cons w program ih =>
    rw [toBytes_cons, List.append_assoc, takeWords_toBytes_append, ih, ← Array.append_singleton,
      Array.append_assoc, ← List.toArray_cons]

theorem parse_toBytes (program : Program) (capacity : Nat) :
    parse (toBytes program) capacity =
      if program.length ≤ capacity then .ok program
      else .error (.programTooLarge program.length capacity) := by
  unfold parse
  rw [← List.append_nil (toBytes program), takeWords_toBytes program (by decide),
    Array.empty_append]
  rfl

/-! ## Instructions -/

theorem length_assemble (instructions : List Instruction) :
    (assemble instructions).length = instructions.length := List.length_map _

/-- Behind a program there are zeros, and zero is the word of a halt. -/
theorem decode_getD_assemble (instructions : List Instruction) (pc : Nat) :
    Instruction.decode ((assemble instructions).getD pc 0) =
      .ok (instructions.getD pc ⟨.halt, 0⟩) := by
  have hzero : (0 : Word) = Instruction.encode ⟨.halt, 0⟩ := rfl
  unfold assemble
  rw [hzero, List.getD_eq_getElem?_getD, List.getElem?_map, Option.getD_map,
    Instruction.decode_encode, List.getD_eq_getElem?_getD]

/-- The bytes of a file can be wrong, but they have been read. -/
theorem parse_error {bytes : List UInt8} {capacity : Nat} {e : LoadError}
    (h : parse bytes capacity = .error e) (failure : ReadFailure) :
    e ≠ .unreadable failure := by
  unfold parse at h
  split at h
  · split at h <;> cases h
    nofun
  · cases h
    nofun

end Program

/-- Fetching and decoding gives the instruction that was put at an address, a halt behind the last
one, and a fault outside the memory. -/
theorem CodeMemory.fetch_decode_assemble {instructions : List Instruction} {capacity : Nat}
    (h : instructions.length ≤ capacity) (pc : Nat) :
    ((ofProgram (Program.assemble instructions) capacity).fetch pc >>= Instruction.decode) =
      if pc < capacity then .ok (instructions.getD pc ⟨.halt, 0⟩)
      else .error (.programCounterOutOfRange (.code pc)) := by
  rw [← Program.length_assemble] at h
  split
  · rename_i hpc
    rw [(fetch_ofProgram h).mpr ⟨hpc, rfl⟩]
    exact Program.decode_getD_assemble instructions pc
  · rename_i hpc
    rw [fetch_eq_error_iff.mpr ⟨by rw [capacity_ofProgram]; omega, rfl⟩]
    rfl

/-! ## Machines -/

namespace Machine

theorem load_apply (config : Config) (bytes : List UInt8) :
    load config bytes = match Program.parse bytes config.codeCapacity with
      | .ok program => ofProgram config program
      | .error e => .error e := by
  unfold load
  cases Program.parse bytes config.codeCapacity <;> rfl

/-- Loading the bytes of a program is making a machine for the program. -/
theorem load_toBytes (config : Config) (program : Program) :
    load config (Program.toBytes program) = ofProgram config program := by
  rw [load_apply, Program.parse_toBytes]
  by_cases h : program.length ≤ config.codeCapacity
  · rw [if_pos h]
  · unfold ofProgram
    rw [if_neg h, if_neg h]

/-- **Loading.** Writing a program as bytes and loading them is the same as making a machine for the
program, whatever its words. A program of instructions is refused exactly if there are more of them
than words of code memory. Otherwise the machine is running, at the first instruction, with an empty
stack and no return addresses, and every address of its code memory holds the instruction that was
put there, or a halt behind the last one. -/
theorem loading_undoes_writing (config : Config) :
    (∀ program, load config (Program.toBytes program) = ofProgram config program) ∧
    ∀ instructions : List Instruction,
      (config.codeCapacity < instructions.length ∧
        ofProgram config (Program.assemble instructions) =
          .error (.programTooLarge instructions.length config.codeCapacity)) ∨
      (instructions.length ≤ config.codeCapacity ∧
        ∃ m, ofProgram config (Program.assemble instructions) = .ok m ∧ m.running = true ∧
          m.pc = 0 ∧ m.data.stack = [] ∧ m.calls = [] ∧
          ∀ pc, (m.code.fetch pc >>= Instruction.decode) =
            if pc < config.codeCapacity then .ok (instructions.getD pc ⟨.halt, 0⟩)
            else .error (.programCounterOutOfRange (.code pc))) := by
  refine ⟨load_toBytes config, fun instructions => ?_⟩
  have hlen := Program.length_assemble instructions
  by_cases hfits : instructions.length ≤ config.codeCapacity
  · refine .inr ⟨hfits, _, ofProgram_eq_ok_iff.mpr ⟨by omega, rfl⟩, rfl, rfl, ?_, rfl,
      CodeMemory.fetch_decode_assemble hfits⟩
    exact DataMemory.stack_eq_nil_iff.mpr (Nat.le_of_eq (DataMemory.capacity_empty _))
  · refine .inl ⟨by omega, ?_⟩
    unfold ofProgram
    rw [hlen, if_neg hfits]

end Machine

end StackMachine
