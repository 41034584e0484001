import Mathlib.Data.Set.Insert
import StackMachine.Proofs.Agreement
import StackMachine.Proofs.Calls

/-!
# What execution does not look at

The count of missed pops and the instruction register are there to be shown. A word below the stack
is looked at only by a load from its address: a push writes before a pop can read.

* `EqualOutside`: two memories that differ in the words at some addresses, and in the count;
* `Veiled`: what stays of this when they go through the same instructions;
* `next_veiled`: one step, provided it loads from none of these addresses;
* `dead_cells_unobserved`: any number of such steps.
-/
namespace StackMachine

namespace DataMemory

/-! ## Memories -/

/-- The memories have the same size, the same mark and the same place of the stack, and the same
words except perhaps at the addresses in `dead`. -/
structure EqualOutside (dead : Set Nat) (d e : DataMemory) : Prop where
  capacity_eq : e.capacity = d.capacity
  sp_eq : e.sp = d.sp
  limit_eq : e.limit = d.limit
  cells_eq : ∀ a ∉ dead, e.cells[a]? = d.cells[a]?

/-- The memories also have the same words on the stack, and the second has counted `lead` more
missed pops. -/
structure Veiled (dead : Set Nat) (lead : Int) (d e : DataMemory) : Prop
    extends EqualOutside dead d e where
  stack_eq : e.stack = d.stack
  underflows_eq : (e.underflows : Int) = d.underflows + lead

/-- A push that succeeds is done inside the memory. -/
theorem pushed_of_push_ok {d e : DataMemory} {w : Word} (h : d.push w = .ok e) :
    0 < d.sp ∧ d.sp ≤ d.capacity ∧ e = d.pushed w := by
  unfold push at h
  split at h
  · cases h
  · split at h
    · cases h
    · rename_i hin
      cases h
      unfold capacity
      exact ⟨by omega, by omega, rfl⟩

/-- Whether a push succeeds, and the fault if not, depends on the sizes alone. -/
theorem push_congr {d e : DataMemory} (hcapacity : e.capacity = d.capacity) (hsp : e.sp = d.sp)
    (hlimit : e.limit = d.limit) (w : Word) :
    e.push w = (d.push w).map fun _ => e.pushed w := by
  unfold capacity at hcapacity
  unfold push pushed
  rw [hcapacity, hsp, hlimit]
  split
  · rfl
  · split <;> rfl

theorem load_congr {d e : DataMemory} (hcapacity : e.capacity = d.capacity) {i : Nat}
    (h : e.cells[i]? = d.cells[i]?) : e.load i = d.load i := by
  unfold load index?
  rw [hcapacity]
  split
  · rename_i j hj
    obtain rfl : i = j := by
      split at hj
      · exact Option.some.inj hj
      · cases hj
    rw [Array.getD_eq_getD_getElem?, Array.getD_eq_getD_getElem?, h]
  · rfl

/-- A stack above all the addresses holds the same words. -/
theorem EqualOutside.stack_eq {dead : Set Nat} {d e : DataMemory} (h : EqualOutside dead d e)
    (hdead : ∀ a ∈ dead, a < d.sp) : e.stack = d.stack := by
  apply List.ext_getElem?
  intro i
  rw [getElem?_stack, getElem?_stack, h.sp_eq]
  apply h.cells_eq
  intro hmem
  have hlt := hdead _ hmem
  omega

namespace Veiled

variable {dead : Set Nat} {lead : Int} {d e : DataMemory}

theorem pop (h : Veiled dead lead d e) : Veiled dead lead d.pop.2 e.pop.2 := by
  have hunderflows := h.underflows_eq
  refine ⟨⟨?_, ?_, ?_, fun a ha => ?_⟩, ?_, ?_⟩
  · rw [capacity_pop, capacity_pop, h.capacity_eq]
  · rw [sp_pop, sp_pop, h.capacity_eq, h.sp_eq]
  · rw [limit_pop, limit_pop, h.limit_eq]
  · rw [cells_pop, cells_pop, h.cells_eq a ha]
  · rw [stack_pop, stack_pop, h.stack_eq]
  · rw [underflows_pop, underflows_pop, h.capacity_eq, h.sp_eq]
    split <;> omega

/-- A write at the same address leaves no new difference. -/
theorem cells_set (h : Veiled dead lead d e) (i : Nat) (w : Word) {a : Nat} (ha : a ∉ dead) :
    (e.cells.setIfInBounds i w)[a]? = (d.cells.setIfInBounds i w)[a]? := by
  have hcapacity : e.cells.size = d.cells.size := h.capacity_eq
  rw [Array.getElem?_setIfInBounds, Array.getElem?_setIfInBounds, hcapacity, h.cells_eq a ha]

theorem pushed (h : Veiled dead lead d e) (hpos : 0 < d.sp) (hle : d.sp ≤ d.capacity) (w : Word) :
    Veiled dead lead (d.pushed w) (e.pushed w) := by
  have hcapacity := h.capacity_eq
  have hsp := h.sp_eq
  refine ⟨⟨?_, ?_, h.limit_eq, fun a ha => ?_⟩, ?_, h.underflows_eq⟩
  · rw [capacity_pushed, capacity_pushed, hcapacity]
  · simp only [DataMemory.pushed, hsp]
  · simp only [DataMemory.pushed, hsp]
    exact h.cells_set _ w ha
  · rw [stack_pushed d w hpos hle, stack_pushed e w (by omega) (by omega), h.stack_eq]

/-- Neither memory has a push that the other has not. -/
theorem lockstep : Lockstep (fun _ => False) (Veiled dead lead) where
  pop_word h := by rw [pop_word, pop_word, h.stack_eq]
  pop h := h.pop
  push_ok {d e w d'} h hp := by
    obtain ⟨hpos, hle, rfl⟩ := pushed_of_push_ok hp
    refine ⟨e.pushed w, ?_, h.pushed hpos hle w⟩
    rw [push_congr h.capacity_eq h.sp_eq h.limit_eq, hp]
    rfl
  push_error {d e w f} h hp := by
    right
    rw [push_congr h.capacity_eq h.sp_eq h.limit_eq, hp]
    rfl

theorem dropTwo (h : Veiled dead lead d e) : Veiled dead lead d.dropTwo e.dropTwo := h.pop.pop

theorem stored (h : Veiled dead lead d e) (i : Nat) (w : Word) :
    Veiled dead lead (d.stored i w) (e.stored i w) := by
  refine ⟨⟨?_, h.sp_eq, ?_, fun a ha => h.cells_set i w ha⟩, ?_, h.underflows_eq⟩
  · rw [capacity_stored, capacity_stored, h.capacity_eq]
  · simp only [DataMemory.stored, h.limit_eq]
  · rw [stack_stored, stack_stored, h.stack_eq, h.sp_eq]

theorem operand_eq (h : Veiled dead lead d e) (i : Nat) : e.operand i = d.operand i := by
  rw [operand, operand, h.stack_eq]

theorem index?_eq (h : Veiled dead lead d e) (address : Int) :
    e.index? address = d.index? address := by
  rw [index?, index?, h.capacity_eq]

end Veiled

end DataMemory

/-! ## Steps -/

namespace Session

open DataMemory

/-- The next step does not load from any of these addresses. -/
def Spares (dead : Set Nat) (s : Session) : Prop :=
  ∀ i ∈ s.instruction?, i.opcode = .rvalue → i.target ∉ dead

instance (dead : Set Nat) [DecidablePred (· ∈ dead)] (s : Session) : Decidable (s.Spares dead) :=
  inferInstanceAs (Decidable (∀ i ∈ s.instruction?, _))

variable {dead : Set Nat} {lead : Int} {s t : Session}

theorem execute_veiled (h : Alike (Veiled dead lead) s t) (i : Instruction)
    (hi : i.opcode = .rvalue → i.target ∉ dead) :
    Agree (fun _ => False) (Alike (Veiled dead lead)) (execute i s) (execute i t) := by
  refine execute_agree Veiled.lockstep h i (fun hop => ?_) (fun hop => ?_)
  · rw [load_apply, load_apply, load_congr h.data.capacity_eq (h.data.cells_eq _ (hi hop))]
    split
    · exact .ok _ h
    · exact .error _ h
  · rw [execute_sto hop, execute_sto hop, h.data.operand_eq, h.data.operand_eq, h.data.index?_eq]
    split
    · exact .ok () (h.withData (h.data.dropTwo.stored _ _))
    · exact .error _ (h.withData h.data.dropTwo)

theorem next_veiled (h : Alike (Veiled dead lead) s t) (hcode : t.machine.code = s.machine.code)
    (hs : s.Spares dead) :
    t.fault? = s.fault? ∧ Alike (Veiled dead lead) s.next t.next := by
  refine (h.step_agree (fun w hw => ?_) (fun f hf => .inr ?_) fun i w hi => ?_).same fun _ _ => id
  · rw [hcode]
    exact hw
  · rw [hcode]
    exact hf
  · exact execute_veiled (h.fetched w w) i (hs i hi)

theorem advance_veiled (h : Alike (Veiled dead lead) s t) (hcode : t.machine.code = s.machine.code)
    (n : Nat) : (∀ m < n, Spares dead (advance m s)) →
      (∀ m < n, (advance m t).fault? = (advance m s).fault?) ∧
      Alike (Veiled dead lead) (advance n s) (advance n t) ∧
      (advance n t).machine.code = (advance n s).machine.code := by
  induction n with
  | zero => exact fun _ => ⟨nofun, h, hcode⟩
  | succ n ih =>
    intro hs
    obtain ⟨hbefore, hn, hcode⟩ := ih fun m hm => hs m (Nat.lt_succ_of_lt hm)
    obtain ⟨hlast, hnext⟩ := next_veiled hn hcode (hs n (Nat.lt_succ_self n))
    refine ⟨fun m hm => ?_, hnext, ?_⟩
    · rcases Nat.lt_succ_iff_lt_or_eq.mp hm with hm | rfl
      · exact hbefore m hm
      · exact hlast
    · unfold advance
      rw [next_code, next_code, hcode]

/-- **Dead cells.** Take two machines at the same console and at the same point of the same program,
with the same return addresses, mark, place of the stack and size of data memory, and the same words
of data memory except at some addresses below the stack; instruction register and count of missed
pops are whatever they are. Run both, step by step. As long as no step loads from one of these
addresses, each step ends with the same fault, or none, on both, and leaves them with the same run
flag, program counter, return addresses, input, output, mark and stack, and with the same words at
all other addresses; the one count stays ahead of the other by as much as at first. -/
theorem dead_cells_unobserved (h : Alike (EqualOutside dead) s t)
    (hcode : t.machine.code = s.machine.code) (hdead : ∀ a ∈ dead, a < s.machine.data.sp) (n : Nat)
    (hs : ∀ m < n, Spares dead (advance m s)) :
    (∀ m < n, (advance m t).fault? = (advance m s).fault?) ∧
    ∀ m ≤ n, Alike
      (Veiled dead ((t.machine.data.underflows : Int) - s.machine.data.underflows))
      (advance m s) (advance m t) := by
  have hstart : Alike
      (Veiled dead ((t.machine.data.underflows : Int) - s.machine.data.underflows)) s t :=
    ⟨⟨h.data, h.data.stack_eq hdead, by omega⟩, h.running, h.pc, h.calls, h.console⟩
  refine ⟨(advance_veiled hstart hcode n hs).1, fun m hm => ?_⟩
  exact (advance_veiled hstart hcode m fun l hl => hs l (Nat.lt_of_lt_of_le hl hm)).2.1

/-- A program that loads a word and prints it, stores one behind the mark, and divides by what is
then left on the stack and by what is not. -/
def digging : Program :=
  .assemble [⟨.push, 1⟩, ⟨.push, 4⟩, ⟨.push, 3⟩, ⟨.rvalue, 1⟩, ⟨.print, 0⟩, ⟨.sto, 0⟩,
    ⟨.binary .div, 0⟩, ⟨.binary .div, 0⟩]

/-- A memory of six words with its mark at one and an empty stack. -/
def clean : Session :=
  ⟨⟨true, .ofProgram digging 8, ⟨#[0, 9, 0, 0, 0, 0], 6, 1, 0⟩, 0, 0, []⟩, .ofBytes [] none⟩

/-- The same with something left between storage and stack, at the end of a longer life. -/
def used : Session :=
  ⟨⟨true, .ofProgram digging 8, ⟨#[0, 9, 8, 7, 6, 5], 6, 1, 4⟩, 0, -1, []⟩, .ofBytes [] none⟩

theorem equalOutside_used : Alike (EqualOutside {a | 1 < a ∧ a < 6}) clean used := by
  refine ⟨⟨rfl, rfl, rfl, fun a ha => ?_⟩, rfl, rfl, rfl, rfl⟩
  match a with
  | 0 | 1 => rfl
  | 2 | 3 | 4 | 5 => exact absurd (by decide) ha
  | _ + 6 => rfl

theorem dead_cells_unobserved_used :
    (∀ m < 8, Spares {a | 1 < a ∧ a < 6} (advance m clean)) ∧
      (advance 5 used).console.output.written = "9\n" ∧
      (advance 6 used).machine.data.limit = 4 ∧
      (advance 7 used).fault? = some (.divisionByZero (.code 7)) ∧
      (advance 8 clean).machine.data.underflows = 2 ∧
      (advance 8 used).machine.data.underflows = 6 := by
  have hs : ∀ m < 8, Spares {a | 1 < a ∧ a < 6} (advance m clean) := by decide
  obtain ⟨hfault, hlast⟩ :=
    dead_cells_unobserved equalOutside_used rfl (fun a ha => ha.2) 8 hs
  have hcount : (advance 8 clean).machine.data.underflows = 2 := by decide
  refine ⟨hs, ?_, (hlast 6 (by decide)).data.limit_eq, (hfault 7 (by decide)).trans (by decide),
    hcount, ?_⟩
  · rw [(hlast 5 (by decide)).console]
    decide
  · have hcounts := (hlast 8 (by decide)).data.underflows_eq
    rw [hcount] at hcounts
    exact Int.natCast_inj.mp hcounts

end Session

end StackMachine
