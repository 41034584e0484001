import Mathlib.Algebra.GroupWithZero.Nat
import StackMachine.Proofs.Arity
import StackMachine.Proofs.DeadCells

/-!
# Operands that are missing

A pop of the empty stack yields zero and is counted, so an instruction goes on without the operands
that the stack lacks, and the count tells how many they were.

* `Balance`: what taking some words off a stack and putting others back leaves, missing words
  counted;
* `Trades`: the action does this, whether it succeeds or fails halfway;
* `execute_trades`: every instruction does it as its arity says, and `next_balance` is the step;
* `missing_operands_counted`: so a history counts the operands that its instructions missed.
-/
namespace StackMachine

/-! ## Memories -/

/-- From the one memory to the other, `taken` words are gone from the stack, as far as it has them,
and those that it has not are counted. If there is no fault, `put` words are in their place. -/
structure DataMemory.Balance (taken put : Nat) (d : DataMemory) (f? : Option Fault)
    (e : DataMemory) : Prop where
  underflows_eq : e.underflows = d.underflows + (taken - d.depth)
  depth_eq : f? = none → e.depth = d.depth - taken + put

namespace DataMemory

variable {d e : DataMemory} {f? : Option Fault}

theorem Balance.refl (f? : Option Fault) (d : DataMemory) : Balance 0 0 d f? d := by
  refine ⟨?_, fun _ => ?_⟩ <;> omega

theorem balance_pop (d : DataMemory) : Balance 1 0 d none d.pop.2 := by
  have hsp := sp_pop d
  have hunder := underflows_pop d
  refine ⟨?_, fun _ => ?_⟩
  · rw [hunder]
    unfold depth
    split <;> omega
  · unfold depth
    rw [capacity_pop, hsp]
    split <;> omega

theorem balance_push {w : Word} (h : d.push w = .ok e) : Balance 0 1 d none e := by
  obtain ⟨hpos, hle, rfl⟩ := pushed_of_push_ok h
  have hcapacity := capacity_pushed d w
  refine ⟨by simp only [pushed]; omega, fun _ => ?_⟩
  unfold depth
  rw [hcapacity]
  simp only [pushed]
  omega

theorem balance_stored (d : DataMemory) (i : Nat) (w : Word) :
    Balance 0 0 d none (d.stored i w) := by
  refine ⟨by simp only [stored]; omega, fun _ => ?_⟩
  unfold depth
  rw [capacity_stored]
  rfl

end DataMemory

namespace Session

open DataMemory

variable {α β : Type} {m n : Nat}

/-! ## Actions -/

/-- The action takes `taken` words off the stack, missing ones counted, and, if it succeeds, has put
`put` words in their place. -/
def Trades (taken put : Nat) (x : Exec α) : Prop :=
  Ensures (fun s f? t => Balance taken put s.machine.data f? t.machine.data) x

namespace Trades

/-- An action that leaves data memory alone takes nothing and puts nothing. -/
theorem idle {x : Exec α} (h : ∀ s, (after (x s)).machine.data = s.machine.data) :
    Trades 0 0 x := by
  intro s
  rw [h s]
  exact .refl _ _

theorem push (w : Word) : Trades 0 1 (push w) := by
  intro s
  rw [push_apply]
  cases hp : s.machine.data.push w with
  | ok d => exact balance_push hp
  | error f => exact ⟨by rw [Nat.zero_sub]; rfl, nofun⟩

/-- An action that fails owes nothing. -/
theorem faultHere (fault : Address → Fault) : Trades 0 n (faultHere fault) :=
  fun _ => ⟨by rw [Nat.zero_sub]; rfl, nofun⟩

theorem load (address : Int) : Trades 0 0 (load address) := by
  apply idle
  intro s
  rw [load_apply]
  split <;> rfl

theorem store (address : Int) (w : Word) : Trades 0 0 (store address w) := by
  intro s
  rw [store_apply, store_eq]
  cases s.machine.data.index? address with
  | some i => exact balance_stored _ i w
  | none => exact .refl _ _

theorem read : Trades 0 0 read := by
  apply idle
  intro s
  rw [read_apply]
  split <;> rfl

theorem print (w : Word) : Trades 0 0 (print w) := by
  apply idle
  intro s
  unfold Session.print
  dsimp only
  split <;> rfl

theorem ret : Trades 0 0 ret := by
  apply idle
  intro s
  unfold Session.ret
  dsimp only
  split <;> rfl

/-- A pop does not fail, so what it takes adds to what the rest takes. -/
theorem pop_bind {k : Word → Exec β} (hk : ∀ w, Trades m n (k w)) :
    Trades (m + 1) n (pop >>= k) := by
  intro s
  rw [pop_bind_apply]
  obtain ⟨hunder, hdepth⟩ := balance_pop s.machine.data
  have hpop := hdepth rfl
  have hrest : Balance m n s.machine.data.pop.2 _ _ :=
    hk s.machine.data.pop.1 (s.withData s.machine.data.pop.2)
  exact ⟨hrest.underflows_eq.trans (by omega), fun hf => (hrest.depth_eq hf).trans (by omega)⟩

/-- Behind an action that may fail, the rest must take nothing: it would not be counted. -/
theorem bind {x : Exec α} {k : α → Exec β} {more : Nat} (hx : Trades m n x)
    (hk : ∀ v, Trades 0 more (k v)) : Trades m (n + more) (x >>= k) := by
  intro s
  obtain ⟨hunder, hdepth⟩ := hx s
  rw [bind_apply]
  cases hr : x s with
  | error f t =>
    rw [hr] at hunder
    exact ⟨hunder, nofun⟩
  | ok v t =>
    rw [hr] at hunder hdepth
    have hfirst : t.machine.data.depth = _ := hdepth rfl
    have hrest := hk v t
    refine ⟨?_, fun hf => ?_⟩
    · rw [hrest.underflows_eq, Nat.zero_sub, Nat.add_zero]
      exact hunder
    · rw [hrest.depth_eq hf]
      omega

end Trades

/-- Every instruction takes its operands and puts back its results. -/
theorem execute_trades (i : Instruction) :
    Trades i.opcode.operands i.opcode.results (execute i) := by
  obtain ⟨op, n⟩ := i
  have jumpIf (c : Prop) [Decidable c] :
      Trades 0 0 (if c then jump (Instruction.mk op n).target else pure ()) :=
    Ensures.ite c (Trades.idle fun _ => rfl) (Trades.idle fun _ => rfl)
  cases op with
  | push | lvalue => exact .push _
  | rvalue => exact (Trades.load _).bind .push
  | pop => exact Ensures.discard (x := pop) fun s => balance_pop s.machine.data
  | sto => exact .pop_bind fun w => .pop_bind fun address => .store _ _
  | copy => exact .pop_bind fun w => (Trades.push w).bind fun _ => .push w
  | unary op => exact .pop_bind fun w => .push _
  | binary op =>
    refine .pop_bind fun right => .pop_bind fun left => ?_
    cases op.eval? left right with
    | some w => exact .push w
    | none => exact .faultHere _
  | gofalse | gotrue => exact .pop_bind fun w => jumpIf _
  | print => exact .pop_bind fun w => .print w
  | read => exact Trades.read.bind .push
  | ret => exact .ret
  | halt | label | goto | gosub => exact .idle fun _ => rfl

/-! ## Steps -/

/-- How many operands the next step takes; none if it has no instruction. -/
def taken (s : Session) : Nat := (s.instruction?.map (·.opcode.operands)).getD 0

/-- How many words the next step puts on the stack if it succeeds. -/
def put (s : Session) : Nat := (s.instruction?.map (·.opcode.results)).getD 0

/-- How many of the operands of the next step are missing. -/
def missing (s : Session) : Nat := s.taken - s.machine.data.depth

theorem next_balance (s : Session) :
    Balance s.taken s.put s.machine.data s.fault? s.next.machine.data := by
  unfold taken put fault? next
  cases hi : s.instruction? with
  | none =>
    rcases step_of_instruction?_none hi with ⟨f, -, hs⟩ | ⟨w, f, -, -, hs⟩ <;> rw [hs] <;>
      exact .refl _ _
  | some i =>
    obtain ⟨w, -, hs⟩ := step_of_instruction? hi
    rw [hs]
    exact execute_trades i (s.fetched w)

theorem Calls.underflows_eq {s t : Session} {later : List Session} (h : Calls s later t) :
    t.machine.data.underflows = s.machine.data.underflows + (later.map missing).sum := by
  refine h.closed (P := fun later t =>
    t.machine.data.underflows = s.machine.data.underflows + (later.map missing).sum)
    (fun later t ih => ?_) (fun _ _ ih => ih) rfl
  rw [(next_balance t).underflows_eq, ih, List.map_cons, List.sum_cons]
  unfold missing
  omega

/-- **Missing operands.** The next step of any session, whether it succeeds or faults, counts
exactly the operands of its instruction that the stack lacks, and if it succeeds the stack has the
results in place of the operands that it had. So along any sequence of steps and runs, whether they
succeed or fault, the count grows by the sum of what each instruction missed, and it is the same as
before exactly if each found its operands. The count of a fresh machine is zero. -/
theorem missing_operands_counted (s : Session) :
    s.next.machine.data.underflows = s.machine.data.underflows + s.missing ∧
    (s.fault? = none →
      s.next.machine.data.depth = s.machine.data.depth - s.taken + s.put) ∧
    (∀ later t, Calls s later t →
      t.machine.data.underflows = s.machine.data.underflows + (later.map missing).sum ∧
      (t.machine.data.underflows = s.machine.data.underflows ↔
        ∀ u ∈ later, u.taken ≤ u.machine.data.depth)) ∧
    ∀ config program, Machine.ofProgram config program = .ok s.machine →
      s.machine.data.underflows = 0 := by
  refine ⟨(next_balance s).underflows_eq, (next_balance s).depth_eq, fun later t h => ?_,
    fun config program hm => ?_⟩
  · have hsum := h.underflows_eq
    refine ⟨hsum, ?_⟩
    rw [hsum, Nat.add_eq_left, List.sum_eq_zero_iff_forall_eq_nat, List.forall_mem_map]
    exact forall₂_congr fun u _ => Nat.sub_eq_zero_iff_le
  · obtain ⟨-, hm⟩ := Machine.ofProgram_eq_ok_iff.mp hm
    rw [hm]
    rfl

/-- A program that stores with one operand and then divides with none. -/
def lacking : Session :=
  ⟨.fresh ⟨4, 4⟩ (.assemble [⟨.push, 5⟩, ⟨.sto, 0⟩, ⟨.binary .div, 0⟩, ⟨.copy, 0⟩]),
    .ofBytes [] none⟩

theorem missing_operands_counted_lacking :
    (advance 2 lacking).fault? = some (.divisionByZero (.code 2)) ∧
      (advance 3 lacking).machine.data.underflows = 1 + 2 ∧
      (advance 3 lacking).fault? = none ∧
      (advance 4 lacking).machine.data.depth = 0 - 1 + 2 ∧
      (advance 4 lacking).machine.data.underflows = 0 + (1 + (2 + (1 + (0 + 0)))) := by
  obtain ⟨hcount, -, -, -⟩ := missing_operands_counted (advance 2 lacking)
  obtain ⟨-, hdepth, -, -⟩ := missing_operands_counted (advance 3 lacking)
  obtain ⟨-, -, hcalls, -⟩ := missing_operands_counted lacking
  exact ⟨by decide, hcount, by decide, hdepth (by decide),
    (hcalls _ _ (calls_advance lacking 4)).1⟩

end Session

end StackMachine
