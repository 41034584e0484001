import StackMachine.Proofs.Frame

/-!
# Where control goes

An instruction goes on to the next one, jumps to its target, calls its target, or returns. `Moves`
lists these cases with what each does to the program counter and the return addresses, and
`execute_moves` says that there are no others, failing or not.
-/
namespace StackMachine.Session

/-- Program counter and return addresses are the same. -/
def SameControl (s t : Session) : Prop :=
  t.machine.pc = s.machine.pc ∧ t.machine.calls = s.machine.calls

/-- Only jumps, calls and returns change them. -/
theorem parts_sameControl {op : Opcode} (hjump : ¬ (op = .goto ∨ op = .gofalse ∨ op = .gotrue))
    (hcall : op ≠ .gosub) (hret : op ≠ .ret) : Parts op fun s _ t => SameControl s t where
  refl _ := ⟨rfl, rfl⟩
  trans h h' := ⟨h'.1.trans h.1, h'.2.trans h.2⟩
  pop _ := ⟨rfl, rfl⟩
  push w s := by
    rw [push_apply]
    split <;> exact ⟨rfl, rfl⟩
  load address s := by
    rw [load_apply]
    split <;> exact ⟨rfl, rfl⟩
  store _ address w s := by
    rw [store_apply]
    split <;> exact ⟨rfl, rfl⟩
  division _ := ⟨rfl, rfl⟩
  halt _ _ := ⟨rfl, rfl⟩
  jump h := absurd h hjump
  call h := absurd h hcall
  ret h := absurd h hret
  read _ s := by
    unfold Session.read
    dsimp only
    split <;> exact ⟨rfl, rfl⟩
  print _ w s := by
    unfold Session.print
    dsimp only
    split <;> exact ⟨rfl, rfl⟩

/-- What an instruction does to the program counter, which is already past it, and to the return
addresses. -/
inductive Moves (i : Instruction) (s t : Session) : Prop
  | on (h : SameControl s t)
  | jump (hpc : t.machine.pc = i.target) (hcalls : t.machine.calls = s.machine.calls)
  | call (hop : i.opcode = .gosub) (hpc : t.machine.pc = i.target)
    (hcalls : t.machine.calls = s.machine.pc :: s.machine.calls)
  | ret (hop : i.opcode = .ret) (hcalls : s.machine.calls = t.machine.pc :: t.machine.calls)

/-- A conditional jump goes on or jumps. -/
theorem moves_ite {i : Instruction} {s t : Session} (h : SameControl s t) (c : Prop) [Decidable c] :
    Moves i s (after ((if c then jump i.target else pure ()) t)) := by
  split
  · exact .jump rfl h.2
  · exact .on h

/-- A return goes back to the latest return address, or leaves control where it is. -/
theorem ret_cases (s : Session) :
    SameControl s (after (ret s)) ∨
      s.machine.calls = (after (ret s)).machine.pc :: (after (ret s)).machine.calls := by
  cases hcalls : s.machine.calls with
  | nil =>
    unfold ret
    dsimp only
    rw [hcalls]
    exact .inl ⟨rfl, rfl⟩
  | cons pc calls =>
    unfold ret
    dsimp only
    rw [hcalls]
    exact .inr rfl

theorem moves_ret {i : Instruction} (hop : i.opcode = .ret) (s : Session) :
    Moves i s (after (ret s)) :=
  (ret_cases s).elim .on (.ret hop)

theorem execute_moves (i : Instruction) (s : Session) : Moves i s (after (execute i s)) := by
  by_cases hother : ¬ (i.opcode = .goto ∨ i.opcode = .gofalse ∨ i.opcode = .gotrue) ∧
      i.opcode ≠ .gosub ∧ i.opcode ≠ .ret
  · exact .on ((parts_sameControl hother.1 hother.2.1 hother.2.2).execute s)
  unfold execute
  cases hop : i.opcode with
  | goto => exact .jump rfl rfl
  | gofalse | gotrue =>
    dsimp only
    rw [pop_bind_apply]
    apply moves_ite
    exact ⟨rfl, rfl⟩
  | gosub => exact .call hop rfl rfl
  | ret => exact moves_ret hop s
  | _ => simp [hop] at hother

end StackMachine.Session
