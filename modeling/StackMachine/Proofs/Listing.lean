import Mathlib.Data.List.Forall2
import StackMachine.Proofs.Agreement
import StackMachine.Proofs.Calls
import StackMachine.Proofs.Code
import StackMachine.Proofs.Encoding

/-!
# What a listing leaves out

The text of an instruction shows its operand only if the opcode takes one. What the text leaves out
does not matter to execution, and little of what it shows could be left out: a push and an lvalue
of the same operand do the same.

* `text_eq_iff`: two instructions have the same text exactly if they have the same opcode and,
  where it takes one, the same operand;
* `execute_congr`: then they do the same;
* `Interchangeable`: words that do the same, or are invalid for the same reason;
* `same_listing_same_behaviour`: programs of interchangeable words cannot be told apart, except by
  the instruction register.
-/
namespace StackMachine

/-! ## Texts -/

theorem Opcode.mnemonic_inj {a b : Opcode} (h : a.mnemonic = b.mnemonic) : a = b := by
  have ha := Opcode.ofMnemonic?_mnemonic a
  rw [h, Opcode.ofMnemonic?_mnemonic] at ha
  exact (Option.some.inj ha).symm

/-- Mnemonics are in upper case. -/
theorem Opcode.isUpper_of_mem_mnemonic {op : Opcode} {c : Char} (h : c ∈ op.mnemonic.toList) :
    c.isUpper = true := by
  have hupper : op.mnemonic.toList.all Char.isUpper = true := by
    rcases op with _ | _ | _ | _ | _ | _ | _ | ⟨⟨⟩⟩ | ⟨⟨⟩⟩ | _ | _ | _ | _ | _ | _ | _ | _ <;> rfl
  exact List.all_eq_true.mp hupper c h

theorem repr_inj {m n : Nat} (h : m.repr = n.repr) : m = n := by
  have digits (k : Nat) : Nat.ofDigitChars 10 k.repr.toList 0 = k := by
    rw [Nat.toList_repr, Nat.ofDigitChars_toDigits (by decide) (by decide)]
  rw [← digits m, h, digits n]

namespace Instruction

theorem toList_text (i : Instruction) :
    i.text.toList = i.opcode.mnemonic.toList ++
      if i.opcode.takesOperand then ' ' :: i.operand.toNat.repr.toList else [] := by
  unfold text
  split <;> simp

/-- A text up to its first space is the mnemonic. -/
theorem takeWhile_text (i : Instruction) :
    i.text.toList.takeWhile (· != ' ') = i.opcode.mnemonic.toList := by
  rw [toList_text, List.takeWhile_append_of_pos]
  · split <;> simp
  · intro c hc
    rw [bne_iff_ne]
    rintro rfl
    exact absurd (Opcode.isUpper_of_mem_mnemonic hc) (by decide)

theorem opcode_eq_of_text {i j : Instruction} (h : i.text = j.text) : i.opcode = j.opcode := by
  apply Opcode.mnemonic_inj
  rw [← String.toList_inj, ← takeWhile_text i, h, takeWhile_text j]

/-- The text of an instruction tells its opcode and an operand that the opcode takes, and nothing
else. -/
theorem text_eq_iff {i j : Instruction} :
    i.text = j.text ↔
      i.opcode = j.opcode ∧ (i.opcode.takesOperand = true → i.operand = j.operand) := by
  constructor
  · intro h
    have hop := opcode_eq_of_text h
    refine ⟨hop, fun htakes => ?_⟩
    have hlist : i.text.toList = j.text.toList := by rw [h]
    rw [toList_text, toList_text, ← hop, if_pos htakes, if_pos htakes,
      List.append_cancel_left_eq, List.cons.injEq, String.toList_inj] at hlist
    exact UInt16.toNat_inj.mp (repr_inj hlist.2)
  · rintro ⟨hop, hoperand⟩
    unfold text
    rw [← hop]
    split
    · rw [hoperand ‹_›]
    · rfl

end Instruction

/-! ## Instructions and words -/

open Session in
/-- The operand matters only to the opcodes that take one. -/
theorem execute_congr {i j : Instruction} (hop : i.opcode = j.opcode)
    (hoperand : i.opcode.takesOperand = true → i.operand = j.operand) :
    execute i = execute j := by
  obtain ⟨op, a⟩ := i
  obtain ⟨op', b⟩ := j
  obtain rfl : op = op' := hop
  cases op with
  | push | rvalue | lvalue | goto | gofalse | gotrue | gosub =>
    obtain rfl : a = b := hoperand rfl
    rfl
  | _ => rfl

/-- Two words that differ in nothing that execution looks at. -/
inductive Interchangeable : Word → Word → Prop
  /-- No instructions, for the same reason. -/
  | invalid {w v : Word} (hmax : Opcode.maxCode < Word.upper w)
    (heq : Word.upper w = Word.upper v) : Interchangeable w v
  | sameText {w v : Word} {i j : Instruction} (hw : Instruction.decode w = .ok i)
    (hv : Instruction.decode v = .ok j) (h : i.text = j.text) : Interchangeable w v
  | pushLvalue {w v : Word} {n : UInt16} (hw : Instruction.decode w = .ok ⟨.push, n⟩)
    (hv : Instruction.decode v = .ok ⟨.lvalue, n⟩) : Interchangeable w v
  | lvaluePush {w v : Word} {n : UInt16} (hw : Instruction.decode w = .ok ⟨.lvalue, n⟩)
    (hv : Instruction.decode v = .ok ⟨.push, n⟩) : Interchangeable w v

namespace Interchangeable

theorem zero : Interchangeable 0 0 := .sameText (i := ⟨.halt, 0⟩) rfl rfl rfl

/-- Interchangeable words are both invalid for the same reason, or are instructions that do the
same. -/
theorem decode {w v : Word} (h : Interchangeable w v) :
    (∃ f, Instruction.decode w = .error f ∧ Instruction.decode v = .error f) ∨
    ∃ i j, Instruction.decode w = .ok i ∧ Instruction.decode v = .ok j ∧
      Session.execute i = Session.execute j := by
  cases h with
  | invalid hmax heq =>
    left
    refine ⟨_, Instruction.decode_eq_error_iff.mpr ⟨hmax, rfl⟩, ?_⟩
    rw [heq] at hmax ⊢
    exact Instruction.decode_eq_error_iff.mpr ⟨hmax, rfl⟩
  | sameText hw hv h =>
    obtain ⟨hop, hoperand⟩ := Instruction.text_eq_iff.mp h
    exact .inr ⟨_, _, hw, hv, execute_congr hop hoperand⟩
  | pushLvalue hw hv => exact .inr ⟨_, _, hw, hv, rfl⟩
  | lvaluePush hw hv => exact .inr ⟨_, _, hw, hv, rfl⟩

theorem getD {P Q : Program} (h : List.Forall₂ Interchangeable P Q) (pc : Nat) :
    Interchangeable (P.getD pc 0) (Q.getD pc 0) := by
  induction h generalizing pc with
  | nil => exact .zero
  | cons hw _ ih =>
    cases pc with
    | zero => exact hw
    | succ pc => exact ih pc

end Interchangeable

/-! ## Runs -/

/-- Every address holds interchangeable words, or lies outside both memories. -/
def CodeMemory.SameListing (c d : CodeMemory) : Prop :=
  ∀ pc : Nat, Option.Rel Interchangeable c.words[pc]? d.words[pc]?

theorem CodeMemory.sameListing_ofProgram {P Q : Program} (h : List.Forall₂ Interchangeable P Q)
    {capacity : Nat} (hP : P.length ≤ capacity) :
    SameListing (.ofProgram P capacity) (.ofProgram Q capacity) := by
  intro pc
  rw [getElem?_ofProgram hP, getElem?_ofProgram (h.length_eq ▸ hP)]
  split
  · exact .some (.getD h pc)
  · exact .none

namespace Session

theorem lockstep_eq : DataMemory.Lockstep (fun _ => False) Eq where
  pop_word h := by rw [h]
  pop h := by rw [h]
  push_ok h hp := ⟨_, h ▸ hp, rfl⟩
  push_error h hp := .inr (h ▸ hp)

/-- An instruction does the same in two sessions that differ in code and instruction register
alone. -/
theorem execute_alike {s t : Session} (h : Alike Eq s t) (i : Instruction) :
    Agree (fun _ => False) (Alike Eq) (execute i s) (execute i t) := by
  refine execute_agree lockstep_eq h i (fun _ => ?_) (fun hsto => ?_)
  · rw [load_apply, load_apply, ← h.data]
    split
    · exact .ok _ h
    · exact .error _ h
  · rw [execute_sto hsto, execute_sto hsto, ← h.data]
    split
    · exact .ok () (h.withData rfl)
    · exact .error _ (h.withData rfl)

/-- So does a step, if the code at hand has the same listing. -/
theorem step_alike {s t : Session} (h : Alike Eq s t)
    (hc : s.machine.code.SameListing t.machine.code) :
    Agree (fun _ => False) (Alike Eq) (step s) (step t) := by
  have hwords := hc s.machine.pc
  generalize hw : s.machine.code.words[s.machine.pc]? = w? at hwords
  rw [← h.pc] at hwords
  generalize hv : t.machine.code.words[t.machine.pc]? = v? at hwords
  cases hwords with
  | none =>
    have hs := CodeMemory.fetch_eq_error_iff.mpr ⟨Array.getElem?_eq_none_iff.mp hw, rfl⟩
    have ht := CodeMemory.fetch_eq_error_iff.mpr ⟨Array.getElem?_eq_none_iff.mp hv, rfl⟩
    rw [step_of_fetch_error hs, step_of_fetch_error ht, h.pc]
    exact .error _ h
  | @some w v hwv =>
    have hs := CodeMemory.fetch_eq_ok_iff.mpr hw
    have ht := CodeMemory.fetch_eq_ok_iff.mpr hv
    rcases hwv.decode with ⟨f, hdw, hdv⟩ | ⟨i, j, hdw, hdv, hij⟩
    · rw [step_of_decode_error hs hdw, step_of_decode_error ht hdv]
      exact .error f (h.fetched w v)
    · rw [step_of_decode_ok hs hdw, step_of_decode_ok ht hdv, hij]
      exact execute_alike (h.fetched w v) j

theorem next_alike {s t : Session} (h : Alike Eq s t)
    (hc : s.machine.code.SameListing t.machine.code) :
    t.fault? = s.fault? ∧ Alike Eq s.next t.next :=
  (step_alike h hc).same fun _ _ => id

theorem advance_alike {s t : Session} (h : Alike Eq s t)
    (hc : s.machine.code.SameListing t.machine.code) (n : Nat) :
    Alike Eq (advance n s) (advance n t) ∧
      (advance n s).machine.code.SameListing (advance n t).machine.code := by
  induction n with
  | zero => exact ⟨h, hc⟩
  | succ n ih =>
    obtain ⟨h, hc⟩ := ih
    refine ⟨(next_alike h hc).2, ?_⟩
    unfold advance
    rw [next_code, next_code]
    exact hc

/-- **Listings.** Take two programs of the same length that agree, word by word, in what they show:
the text of an instruction or, where there is none, the number that is no opcode; a push may stand
for an lvalue. A machine is either too small for both or takes both. Then every step, from every
console and however many came before it, ends with the same fault, or none, and leaves both with
the same data memory, run flag, program counter, return addresses, input and output. -/
theorem same_listing_same_behaviour {P Q : Program} (h : List.Forall₂ Interchangeable P Q)
    (config : Config) :
    (∃ e, Machine.ofProgram config P = .error e ∧ Machine.ofProgram config Q = .error e) ∨
    ∃ a b, Machine.ofProgram config P = .ok a ∧ Machine.ofProgram config Q = .ok b ∧
      ∀ (console : Console) (n : Nat),
        (advance n ⟨b, console⟩).fault? = (advance n ⟨a, console⟩).fault? ∧
        Alike Eq (advance n ⟨a, console⟩) (advance n ⟨b, console⟩) := by
  have hlen := h.length_eq
  by_cases hfits : P.length ≤ config.codeCapacity
  · right
    refine ⟨_, _, Machine.ofProgram_eq_ok_iff.mpr ⟨hfits, rfl⟩,
      Machine.ofProgram_eq_ok_iff.mpr ⟨hlen ▸ hfits, rfl⟩, fun console n => ?_⟩
    have hstart : Alike Eq ⟨.fresh config P, console⟩ ⟨.fresh config Q, console⟩ :=
      ⟨rfl, rfl, rfl, rfl, rfl⟩
    obtain ⟨ha, hc⟩ := advance_alike hstart (CodeMemory.sameListing_ofProgram h hfits) n
    exact ⟨(next_alike ha hc).1, ha⟩
  · left
    refine ⟨.programTooLarge P.length config.codeCapacity, ?_, ?_⟩ <;> unfold Machine.ofProgram
    · rw [if_neg hfits]
    · rw [if_neg (hlen ▸ hfits), hlen]

/-- A program that prints 7 and runs into a word that is no instruction. -/
def plain : Program :=
  .assemble [⟨.push, 7⟩, ⟨.copy, 0⟩, ⟨.print, 0⟩] ++ [Word.ofHalves 36 0]

/-- The same with something in every field that the listing leaves out. -/
def scribbled : Program :=
  .assemble [⟨.lvalue, 7⟩, ⟨.copy, 3⟩, ⟨.print, 9⟩] ++ [Word.ofHalves 36 65535]

theorem same_listing_same_behaviour_scribbled :
    List.Forall₂ Interchangeable plain scribbled ∧
      let s : Session := ⟨.fresh ⟨4, 8⟩ plain, .ofBytes [] none⟩
      let t : Session := ⟨.fresh ⟨4, 8⟩ scribbled, .ofBytes [] none⟩
      (advance 3 t).fault? = some (.invalidOpcode 36) ∧
      (advance 4 t).console.output.written = "7\n" ∧
      (advance 4 t).machine.data = (advance 4 s).machine.data ∧
      (advance 4 t).machine.ir ≠ (advance 4 s).machine.ir := by
  have hlisting : List.Forall₂ Interchangeable plain scribbled :=
    .cons (.pushLvalue rfl rfl) <| .cons (.sameText rfl rfl rfl) <|
      .cons (.sameText rfl rfl rfl) <| .cons (.invalid (by decide) (by decide)) .nil
  refine ⟨hlisting, ?_⟩
  rcases same_listing_same_behaviour hlisting ⟨4, 8⟩ with ⟨e, he, -⟩ | ⟨a, b, ha, hb, h⟩
  · cases he
  · obtain ⟨-, rfl⟩ := Machine.ofProgram_eq_ok_iff.mp ha
    obtain ⟨-, rfl⟩ := Machine.ofProgram_eq_ok_iff.mp hb
    obtain ⟨hfault, -⟩ := h (.ofBytes [] none) 3
    obtain ⟨-, hlast⟩ := h (.ofBytes [] none) 4
    refine ⟨hfault.trans (by decide), ?_, hlast.data.symm, by decide⟩
    rw [hlast.console]
    decide

end Session

end StackMachine
