import StackMachine.Console

/-!
# Laws of the console

Reading leaves the output alone and fails only for what it reads; printing leaves the input alone
and fails only for lack of room.
-/
namespace StackMachine

namespace Input

/-- The faults of reading. -/
inductive ReadFault : Fault → Prop
  | exhausted : ReadFault .inputExhausted
  | undecodable : ReadFault .undecodableInput
  | invalid (token : String) : ReadFault (.invalidInput token)

theorem firstToken_error {lines : List (List UInt8)} {f : Fault} {input : Input}
    (h : firstToken lines = .error f input) : ReadFault f := by
  induction lines with
  | nil =>
    cases h
    exact .exhausted
  | cons line rest ih =>
    unfold firstToken at h
    split at h
    · cases h
      exact .undecodable
    · split at h
      · exact ih h
      · cases h

theorem nextToken_error {before after : Input} {f : Fault}
    (h : nextToken before = .error f after) : ReadFault f := by
  unfold nextToken at h
  split at h
  · cases h
  · exact firstToken_error h

theorem read_apply (input : Input) :
    read input = match nextToken input with
      | .ok token rest =>
        match Text.integer? token with
        | some w => .ok w rest
        | none => .error (.invalidInput (String.ofList token)) rest
      | .error f rest => .error f rest := by
  show EStateM.bind nextToken _ input = _
  unfold EStateM.bind
  cases nextToken input with
  | ok token rest => dsimp only; cases Text.integer? token <;> rfl
  | error f rest => rfl

theorem read_error {before after : Input} {f : Fault} (h : read before = .error f after) :
    ReadFault f := by
  rw [read_apply] at h
  cases hn : nextToken before with
  | ok token rest =>
    simp only [hn] at h
    split at h
    · cases h
    · cases h
      exact .invalid _
  | error g rest =>
    simp only [hn] at h
    cases h
    exact nextToken_error hn

end Input

theorem Output.print_error {before after : Output} {w : Word} {f : Fault}
    (h : Output.print w before = .error f after) : f = .outputFull := by
  unfold Output.print Output.write at h
  dsimp only at h
  split at h
  · cases h
  · split at h
    · cases h
    · cases h
      rfl

namespace Console

variable {before after : Console} {f : Fault}

theorem read_ok {w : Word} (h : read before = .ok w after) : after.output = before.output := by
  unfold read at h
  dsimp only at h
  split at h <;> cases h
  rfl

theorem read_error (h : read before = .error f after) :
    after.output = before.output ∧ Input.ReadFault f := by
  unfold read at h
  dsimp only at h
  split at h <;> cases h
  exact ⟨rfl, Input.read_error ‹_›⟩

theorem print_error {w : Word} (h : print w before = .error f after) :
    after.input = before.input ∧ f = .outputFull := by
  unfold print at h
  dsimp only at h
  split at h <;> cases h
  exact ⟨rfl, Output.print_error ‹_›⟩

end Console

end StackMachine
