import Mathlib.Data.Nat.Factorial.Basic
import StackMachine.Proofs.Operations
import StackMachine.Proofs.Outline

/-!
# A program that computes factorials

The program reads a word and calls a subroutine, which multiplies one variable by another while
it counts the other down to zero. The multiplication wraps, and so does the count: from a negative
word it goes down through the least word, so there are as many turns as the word's residue says.

* `leads_turn`: one turn of the loop; `leads_loop`: all of them, by induction on the residue of
  the counter, where the product is known up to congruence;
* `dvd_factorial`: after that many turns a negative word has left nothing of the product;
* `prints_factorial`: what the program prints, for every word.
-/
namespace StackMachine.Factorial

open Session

variable {x a : Word} {others : List (Except Fault Word)}

/-- The variable at 0 counts down, and the variable at 1 collects the product. -/
def code : List Instruction := [
  ⟨.lvalue, 0⟩, ⟨.read, 0⟩, ⟨.sto, 0⟩,
  ⟨.lvalue, 1⟩, ⟨.push, 1⟩, ⟨.sto, 0⟩,
  ⟨.gosub, 10⟩,
  ⟨.rvalue, 1⟩, ⟨.print, 0⟩,
  ⟨.halt, 0⟩,
  -- the subroutine
  ⟨.rvalue, 0⟩, ⟨.gofalse, 24⟩,
  ⟨.lvalue, 1⟩, ⟨.rvalue, 1⟩, ⟨.rvalue, 0⟩, ⟨.binary .mpy, 0⟩, ⟨.sto, 0⟩,
  ⟨.lvalue, 0⟩, ⟨.rvalue, 0⟩, ⟨.push, 1⟩, ⟨.binary .sub, 0⟩, ⟨.sto, 0⟩,
  ⟨.goto, 10⟩,
  ⟨.halt, 0⟩,
  ⟨.ret, 0⟩]

/-! ## The straight parts -/

theorem code_fits : code.length ≤ ({} : Config).codeCapacity := by decide

/-- Before a turn of the loop. -/
def atLoop (others : List (Except Fault Word)) (x a : Word) : Outline where
  pc := 10
  stack := []
  vars := [x, a]
  mark := 1
  calls := [7]
  input := others
  printed := []

/-- At the halt of the main program. -/
def atEnd (others : List (Except Fault Word)) (a : Word) : Outline where
  pc := 9
  stack := []
  vars := [0, a]
  mark := 1
  calls := []
  input := others
  printed := [a]

theorem leads_start (x : Word) (others : List (Except Fault Word)) :
    Leads {} code ⟨0, [], [0, 0], 0, [], .ok x :: others, []⟩ (atLoop others x 1) :=
  leads_of_run? code_fits 7 rfl

theorem leads_turn (h : x ≠ 0) :
    Leads {} code (atLoop others x a) (atLoop others (x - 1) (a * x)) := by
  have hcond : Outline.run? code 65536 2 (atLoop others x a) =
      some { atLoop others x a with pc := 12 } := by
    show (if x = 0 then Outline.jump 24 else pure ()) { atLoop others x a with pc := 12 } >>= _ = _
    rw [if_neg h]
    rfl
  exact (leads_of_run? code_fits 2 hcond).trans (leads_of_run? code_fits 11 rfl)

theorem leads_end (a : Word) (others : List (Except Fault Word)) :
    Leads {} code (atLoop others 0 a) (atEnd others a) :=
  leads_of_run? code_fits 5 rfl

/-! ## The loop -/

/-- One less, unless there is nothing left. -/
theorem toNat_sub_one {u : Nat} (h : x.toUInt32.toNat = u + 1) :
    (x - 1).toUInt32.toNat = u := by
  have hsub : (x - 1).toInt ≡ x.toInt - 1 [ZMOD 2 ^ 32] :=
    BinaryOp.eval?_modEq (show BinaryOp.sub.eval? x 1 = some (x - 1) from rfl)
  have hx := x.toInt_emod
  have hlt := x.toUInt32.toNat_lt
  have hx' := (x - 1).toInt_emod
  unfold Int.ModEq at hsub
  omega

/-- From the product `a` the loop gets to `a` times the factorial of its counter's residue. -/
theorem leads_loop (others : List (Except Fault Word)) (u : Nat) :
    ∀ x a : Word, x.toUInt32.toNat = u →
    ∃ w : Word, w.toInt ≡ a.toInt * u.factorial [ZMOD 2 ^ 32] ∧
      Leads {} code (atLoop others x a) (atEnd others w) := by
  induction u with
  | zero =>
    intro x a hx
    obtain rfl : x = 0 := Word.eq_of_toNat hx
    refine ⟨a, ?_, leads_end a others⟩
    rw [Nat.factorial_zero, Nat.cast_one, mul_one]
  | succ u ih =>
    intro x a hx
    have hne : x ≠ 0 := by
      rintro rfl
      cases hx
    obtain ⟨w, hw, hleads⟩ := ih (x - 1) (a * x) (toNat_sub_one hx)
    have hmul : (a * x).toInt ≡ a.toInt * x.toInt [ZMOD 2 ^ 32] :=
      BinaryOp.eval?_modEq (show BinaryOp.mpy.eval? a x = some (a * x) from rfl)
    have hcount : x.toInt ≡ ((u + 1 : Nat) : Int) [ZMOD 2 ^ 32] := hx ▸ x.toInt_modEq_toNat
    refine ⟨w, ?_, (leads_turn hne).trans hleads⟩
    calc w.toInt
      _ ≡ (a * x).toInt * u.factorial [ZMOD 2 ^ 32] := hw
      _ ≡ a.toInt * ((u + 1 : Nat) : Int) * u.factorial [ZMOD 2 ^ 32] :=
        (hmul.trans (hcount.mul_left _)).mul_right _
      _ = a.toInt * (u + 1).factorial := by
        rw [Nat.factorial_succ, Nat.cast_mul, mul_assoc]

/-! ## What is printed -/

/-- There are 32 twos among the factors from 34 on. -/
theorem dvd_factorial {u : Nat} (h : 34 ≤ u) : 2 ^ 32 ∣ u.factorial :=
  (show 2 ^ 32 ∣ Nat.factorial 34 by decide).trans (Nat.factorial_dvd_factorial h)

/-- **The factorial of every word.** Whatever word the first token of the input denotes, the run of
the program terminates without a fault, and has printed one line: the decimal text of the word that
is congruent to the factorial of the input's residue. For an input that is not negative that is its
own factorial, and for a negative one it is zero. No value is left on the stack and no return
address, no pop found it empty, and the latest variable is the highest address stored to. -/
theorem prints_factorial {text token : List Char} {others : List (List Char)} {n : Word}
    (htext : Text.Runs text (token :: others)) (htoken : Text.integer? token = some n) :
    ∃ (m : Machine) (t : Session) (w : Word),
      Machine.load {} (Program.toBytes (Program.assemble code)) = .ok m ∧
      RunsTo ⟨m, .ofBytes (Text.utf8 text) none⟩ (.ok () t) ∧
      t.console.output.written = w.decimal ++ "\n" ∧
      w.toInt ≡ (n.toInt % 2 ^ 32).toNat.factorial [ZMOD 2 ^ 32] ∧
      (0 ≤ n.toInt → w.toInt ≡ n.toInt.toNat.factorial [ZMOD 2 ^ 32]) ∧
      (n.toInt < 0 → w = 0) ∧
      t.machine.data.stack = [] ∧ t.machine.calls = [] ∧
      t.machine.data.underflows = 0 ∧ t.machine.data.limit = 1 := by
  have hlt := n.toInt_lt
  have hle := n.le_toInt
  have hresidue := n.toInt_emod
  have hinput : (Input.ofBytes (Text.utf8 text)).remaining =
      .ok n :: others.map Input.tokenResult := by
    rw [Input.remaining_ofBytes (Input.holds_utf8 text), ← Text.runs_iff.mp htext, List.map_cons,
      Input.tokenResult, htoken]
  obtain ⟨w, hw, hloop⟩ := leads_loop (others.map Input.tokenResult) _ n 1 rfl
  have hshows := shows_fresh {} code 2 (by decide) (by decide) (by decide) (Text.utf8 text)
  rw [hinput] at hshows
  obtain ⟨t, hruns, hcalls, hdata, hout⟩ :=
    ((leads_start n _).trans hloop).runsTo code_fits (by rfl) hshows
  have hcongr : w.toInt ≡ (n.toInt % 2 ^ 32).toNat.factorial [ZMOD 2 ^ 32] := by
    rw [hresidue, Int.toNat_natCast]
    simpa using hw
  refine ⟨_, t, w, ?_, hruns, ?_, hcongr, fun hn => ?_, fun hn => ?_, hdata.stack_eq, hcalls,
    hdata.underflows_eq, hdata.limit_eq⟩
  · rw [Machine.load_toBytes]
    exact Machine.ofProgram_eq_ok_iff.mpr ⟨by decide, rfl⟩
  · rw [hout]
    exact Output.text_singleton w
  · rwa [Int.emod_eq_of_lt hn (by omega)] at hcongr
  · have hbig : 34 ≤ (n.toInt % 2 ^ 32).toNat := by omega
    have hzero : (((n.toInt % 2 ^ 32).toNat.factorial : Nat) : Int) ≡
        (0 : Word).toInt [ZMOD 2 ^ 32] :=
      Int.modEq_zero_iff_dvd.mpr (by exact_mod_cast dvd_factorial hbig)
    exact Word.eq_of_modEq (hcongr.trans hzero)

/-- The run of the program on a text ends without a fault and has printed `output`. -/
def Prints (text : List Char) (output : String) : Prop :=
  ∃ (m : Machine) (t : Session),
    Machine.load {} (Program.toBytes (Program.assemble code)) = .ok m ∧
    RunsTo ⟨m, .ofBytes (Text.utf8 text) none⟩ (.ok () t) ∧
    t.console.output.written = output

/-- The greatest residue, and more input behind it. -/
def greatest : List Char := "-1 x".toList

theorem prints_factorial_five_greatest :
    (Text.Runs ['5'] [['5']] ∧ Text.integer? ['5'] = some 5 ∧ Prints ['5'] "120\n") ∧
      Text.Runs greatest ["-1".toList, "x".toList] ∧ Text.integer? "-1".toList = some (-1) ∧
        Prints greatest "0\n" := by
  have hfive : Text.Runs ['5'] [['5']] := Text.runs_iff.mpr (by decide)
  have hfive' : Text.integer? ['5'] = some 5 := by decide
  have hgreatest : Text.Runs greatest ["-1".toList, "x".toList] := Text.runs_iff.mpr (by decide)
  have hgreatest' : Text.integer? "-1".toList = some (-1) := by decide
  refine ⟨⟨hfive, hfive', ?_⟩, hgreatest, hgreatest', ?_⟩
  · obtain ⟨m, t, w, hm, hruns, hout, -, hexact, -⟩ := prints_factorial hfive hfive'
    -- no other word has the residue of 120
    obtain rfl : w = 120 := Word.eq_of_modEq (hexact (by decide))
    exact ⟨m, t, hm, hruns, hout.trans (by decide)⟩
  · obtain ⟨m, t, w, hm, hruns, hout, -, -, hzero, -⟩ := prints_factorial hgreatest hgreatest'
    obtain rfl := hzero (by decide)
    exact ⟨m, t, hm, hruns, hout.trans (by decide)⟩

end StackMachine.Factorial
