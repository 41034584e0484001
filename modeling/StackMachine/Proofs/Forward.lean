import StackMachine.Proofs.Code
import StackMachine.Proofs.Control
import StackMachine.Proofs.Runs

/-!
# Programs that jump forward

If every jump and every call of a program goes forward, its runs end, although a return goes back
and a subroutine may be entered again and again. The program counter and each return address stand
for steps that may still come: at most `2 ^ n - 1` from an address with `n` words of the program
behind it. A call is one step and leaves two addresses of this kind, both further on, so the sum
falls.

* `Program.Forward`: the jumps and calls of a program go forward;
* `Machine.stepsLeft`: the sum; `stepsLeft_next`: a step inside the program lowers it;
* `ends_behind`: a step behind the program is the last;
* `forward_program_ends`: so fewer than `2 ^ n` steps come before the last one of a program of `n`
  words.
-/
namespace StackMachine

/-- Whether an instruction with this opcode can go on at its operand. -/
def Opcode.jumps : Opcode → Bool
  | .goto | .gofalse | .gotrue | .gosub => true
  | _ => false

/-- The jumps and calls of a program go to addresses behind their own. -/
def Program.Forward (program : Program) : Prop :=
  ∀ pc w i, program[pc]? = some w → Instruction.decode w = .ok i → i.opcode.jumps = true →
    pc < i.target

/-! ## Steps that are left -/

/-- How many steps may come from an address on, in a program of the given length. -/
def stepsFrom (length pc : Nat) : Nat := 2 ^ (length - pc) - 1

/-- From an address there is the step itself, and then twice as many as from the next one. -/
theorem stepsFrom_of_lt {length pc : Nat} (h : pc < length) :
    stepsFrom length pc = 2 * stepsFrom length (pc + 1) + 1 := by
  have hlength : length - pc = length - (pc + 1) + 1 := by omega
  have hpos := Nat.two_pow_pos (length - (pc + 1))
  unfold stepsFrom
  rw [hlength, Nat.pow_succ]
  omega

theorem stepsFrom_anti (length : Nat) {pc target : Nat} (h : pc ≤ target) :
    stepsFrom length target ≤ stepsFrom length pc := by
  have hpow : 2 ^ (length - target) ≤ 2 ^ (length - pc) :=
    Nat.pow_le_pow_right (by decide) (by omega)
  unfold stepsFrom
  omega

/-- How many steps may come from some return addresses on. -/
def stepsPending (length : Nat) : List Nat → Nat
  | [] => 0
  | pc :: calls => stepsFrom length pc + stepsPending length calls

namespace Machine

/-- How many steps may come from the program counter on, and from each of the return addresses. -/
def stepsLeft (length : Nat) (m : Machine) : Nat :=
  stepsFrom length m.pc + stepsPending length m.calls

theorem stepsLeft_fresh (config : Config) (program : Program) :
    (fresh config program).stepsLeft program.length = 2 ^ program.length - 1 := rfl

end Machine

namespace Session

variable {length capacity : Nat} {program : Program} {s t : Session} {i : Instruction}

theorem SameControl.stepsLeft_eq (h : SameControl s t) :
    t.machine.stepsLeft length = s.machine.stepsLeft length := by
  unfold Machine.stepsLeft
  rw [h.1, h.2]

theorem stepsLeft_of_ret (length : Nat) (h : s.machine.calls = t.machine.pc :: t.machine.calls) :
    t.machine.stepsLeft length ≤ s.machine.stepsLeft length := by
  unfold Machine.stepsLeft
  rw [h, stepsPending]
  omega

/-- An instruction that jumps forward, if at all, leaves no more than a second address like the one
it goes on at. -/
theorem stepsLeft_execute (h : i.opcode.jumps = true → s.machine.pc ≤ i.target) :
    (after (execute i s)).machine.stepsLeft length ≤
      stepsFrom length s.machine.pc + s.machine.stepsLeft length := by
  by_cases hjumps : i.opcode.jumps = true
  · have htarget := stepsFrom_anti length (h hjumps)
    cases execute_moves i s with
    | on hsame =>
      rw [hsame.stepsLeft_eq]
      omega
    | jump hpc hcalls =>
      unfold Machine.stepsLeft
      rw [hpc, hcalls]
      omega
    | call _ hpc hcalls =>
      unfold Machine.stepsLeft
      rw [hpc, hcalls, stepsPending]
      omega
    | ret _ hcalls =>
      have hle := stepsLeft_of_ret length hcalls
      omega
  · by_cases hret : i.opcode = .ret
    · have hexec : execute i s = ret s := by
        unfold execute
        rw [hret]
      rw [hexec]
      rcases ret_cases s with hsame | hcalls
      · rw [hsame.stepsLeft_eq]
        omega
      · have hle := stepsLeft_of_ret length hcalls
        omega
    · have hsame : SameControl s (after (execute i s)) := by
        refine (parts_sameControl ?_ ?_ hret).execute s
        · rintro (hop | hop | hop) <;> exact hjumps (by rw [hop]; rfl)
        · intro hop
          exact hjumps (by rw [hop]; rfl)
      rw [hsame.stepsLeft_eq]
      omega

/-- A step from an address of the program lowers what is left, whether it succeeds or faults. -/
theorem stepsLeft_next (hforward : program.Forward) (hfits : program.length ≤ capacity)
    (hcode : s.machine.code = .ofProgram program capacity)
    (hpc : s.machine.pc < program.length) :
    s.next.machine.stepsLeft program.length < s.machine.stepsLeft program.length := by
  have hword : s.machine.code.fetch s.machine.pc = .ok (program.getD s.machine.pc 0) := by
    rw [hcode]
    exact (CodeMemory.fetch_ofProgram hfits).mpr ⟨by omega, rfl⟩
  have hsteps := stepsFrom_of_lt hpc
  suffices hle : s.next.machine.stepsLeft program.length ≤
      stepsFrom program.length (s.machine.pc + 1) +
        (s.fetched (program.getD s.machine.pc 0)).machine.stepsLeft program.length by
    simp only [Machine.stepsLeft, fetched] at hle ⊢
    omega
  unfold next
  cases hd : Instruction.decode (program.getD s.machine.pc 0) with
  | error f =>
    rw [step_of_decode_error hword hd]
    exact Nat.le_add_left _ _
  | ok i =>
    rw [step_of_decode_ok hword hd]
    refine stepsLeft_execute fun hjumps => ?_
    refine hforward _ _ i ?_ hd hjumps
    rw [List.getD_eq_getElem?_getD, List.getElem?_eq_getElem hpc, Option.getD_some]

/-! ## The end -/

/-- Behind the program there are halts, and behind these there is nothing. -/
theorem ends_behind (hfits : program.length ≤ capacity)
    (hcode : s.machine.code = .ofProgram program capacity)
    (hpc : program.length ≤ s.machine.pc) : s.Halts ∨ ∃ f, s.fault? = some f := by
  by_cases hlt : s.machine.pc < capacity
  · left
    refine ⟨0, instruction?_eq_some_iff.mpr ⟨0, ?_, rfl⟩⟩
    rw [hcode]
    refine (CodeMemory.fetch_ofProgram hfits).mpr ⟨hlt, ?_⟩
    rw [List.getD_eq_getElem?_getD, List.getElem?_eq_none hpc, Option.getD_none]
  · right
    refine ⟨.programCounterOutOfRange (.code s.machine.pc), ?_⟩
    unfold fault?
    rw [step_of_fetch_error]
    · rfl
    · rw [hcode, CodeMemory.fetch_eq_error_iff, CodeMemory.capacity_ofProgram]
      exact ⟨by omega, rfl⟩

/-- No more steps come before the last one than are left. -/
theorem exists_ends (hforward : program.Forward) (hfits : program.length ≤ capacity)
    (hcode : s.machine.code = .ofProgram program capacity) :
    ∃ n ≤ s.machine.stepsLeft program.length, ∃ f?, s.Ends n f? := by
  induction hleft : s.machine.stepsLeft program.length using Nat.strongRecOn generalizing s with
  | ind left ih =>
    cases hfault : s.fault? with
    | some f => exact ⟨0, Nat.zero_le _, some f, ends_of_fault? hfault⟩
    | none =>
      by_cases hhalt : s.Halts
      · exact ⟨0, Nat.zero_le _, none, hhalt.ends⟩
      · have hpc : s.machine.pc < program.length := by
          refine Nat.lt_of_not_le fun hbehind => ?_
          rcases ends_behind hfits hcode hbehind with h | ⟨f, h⟩
          · exact hhalt h
          · rw [hfault] at h
            cases h
        have hlt := stepsLeft_next hforward hfits hcode hpc
        obtain ⟨n, hn, f?, hends⟩ := ih _ (hleft ▸ hlt) ((next_code s).trans hcode) rfl
        exact ⟨n + 1, by omega, f?, ends_succ_iff.mpr ⟨hfault, hhalt, hends⟩⟩

/-- **Forward programs.** Let all jumps and calls of a program go to addresses behind their own. A
machine that is about to run the program, whatever its memories, executes a halt or faults after
fewer than `2 ^ n` steps, where `n` is the number of words, whatever finite stream it reads and
wherever it prints. So its run yields something, given fuel for as many steps. -/
theorem forward_program_ends {config : Config} {program : Program} {m : Machine}
    (hm : Machine.ofProgram config program = .ok m) (hforward : program.Forward)
    (console : Console) :
    ∃ n < 2 ^ program.length, ∃ f?, Ends ⟨m, console⟩ n f? ∧
      ∀ fuel, 2 ^ program.length ≤ fuel →
        run? fuel ⟨m, console⟩ = some (ended n ⟨m, console⟩ f?) := by
  obtain ⟨hfits, rfl⟩ := Machine.ofProgram_eq_ok_iff.mp hm
  obtain ⟨n, hn, f?, hends⟩ :=
    exists_ends (s := ⟨.fresh config program, console⟩) hforward hfits rfl
  have hpos := Nat.two_pow_pos program.length
  have hlt : n < 2 ^ program.length := by
    rw [show (Session.machine ⟨.fresh config program, console⟩) = .fresh config program from rfl,
      Machine.stepsLeft_fresh] at hn
    omega
  exact ⟨n, hlt, f?, hends, fun fuel hfuel => hends.run?_eq rfl (Nat.lt_of_lt_of_le hlt hfuel)⟩

/-- Every word but the last calls the next one, so each is entered twice as often as the one
before. -/
def doubling : Program := .assemble [⟨.gosub, 1⟩, ⟨.gosub, 2⟩, ⟨.gosub, 3⟩, ⟨.ret, 0⟩]

def doublingStart : Session := ⟨.fresh ⟨4, 0⟩ doubling, .ofBytes [] none⟩

theorem forward_program_ends_doubling :
    doubling.Forward ∧ doublingStart.run? 14 = none ∧
      ∃ n < 16, doublingStart.Ends n (some (.returnStackUnderflow (.code 3))) := by
  have hforward : doubling.Forward := by
    intro pc w i hw hi hjumps
    match pc with
    | 0 | 1 | 2 =>
      cases hw
      cases hi
      decide
    | 3 =>
      cases hw
      cases hi
      cases hjumps
    | _ + 4 => cases hw
  have hm : Machine.ofProgram ⟨4, 0⟩ doubling = .ok doublingStart.machine := rfl
  obtain ⟨n, hn, f?, hends, hrun⟩ := forward_program_ends hm hforward doublingStart.console
  have hfault : (doublingStart.run? 16).map faultOf? =
      some (some (.returnStackUnderflow (.code 3))) := by decide +kernel
  rw [hrun 16 (by decide), Option.map_some, faultOf?_ended, Option.some.injEq] at hfault
  rw [hfault] at hends
  exact ⟨hforward, by decide +kernel, n, hn, hends⟩

end Session

end StackMachine
