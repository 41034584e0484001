import StackMachine.Fault
import StackMachine.Folder
import StackMachine.Proofs.Text

/-!
# Messages

* `EndsPlain`: a text that ends without a full stop, as the texts of all faults and load errors do;
* `LoadError.newline_not_mem_message`: the text of a load error is one line, if the system's reason
  for it is;
* `Folder.read_error`: a folder's reasons are known ones, and `ReadFailure.newline_not_mem_reason`:
  these are one line each.
-/
namespace StackMachine

/-! ## Ends of texts -/

namespace Text

/-- The text ends, but not with a full stop. -/
def EndsPlain (text : String) : Prop := text.toList.getLast?.any (· ≠ '.') = true

instance (text : String) : Decidable (EndsPlain text) := inferInstanceAs (Decidable (_ = _))

theorem endsPlain_append {a b : String} (h : b ≠ "") : EndsPlain (a ++ b) ↔ EndsPlain b := by
  have hne : b.toList ≠ [] := mt String.toList_eq_nil_iff.mp h
  unfold EndsPlain
  rw [String.toList_append, List.getLast?_append, List.getLast?_eq_some_getLast hne,
    Option.some_or]

theorem EndsPlain.ne {a b : String} (ha : EndsPlain a) (hb : ¬ EndsPlain b) : a ≠ b := by
  rintro rfl
  exact hb ha

theorem EndsPlain.append (a : String) {b : String} (h : EndsPlain b) : EndsPlain (a ++ b) := by
  refine (endsPlain_append ?_).mpr h
  rintro rfl
  exact absurd h (by decide)

/-! ## Numbers -/

theorem endsPlain_repr (n : Nat) : EndsPlain n.repr := by
  have hlast := List.getLast_mem (Nat.toDigits_ne_nil (b := 10) (n := n))
  unfold EndsPlain
  rw [Nat.toList_repr, List.getLast?_eq_some_getLast Nat.toDigits_ne_nil]
  refine decide_eq_true fun hstop => ?_
  rw [hstop] at hlast
  exact absurd (isDigit_of_mem_toDigits hlast) (by decide)

theorem endsPlain_int (n : Int) : EndsPlain n.repr := by
  cases n with
  | ofNat n => exact endsPlain_repr n
  | negSucc n => exact (endsPlain_repr _).append _

end Text

open Text

/-! ## Faults and load errors -/

theorem Address.endsPlain_text (a : Address) : EndsPlain a.text := by
  cases a <;> exact .append _ (by decide)

theorem Fault.endsPlain_message (f : Fault) : EndsPlain f.message := by
  cases f with
  | stackCollision | invalidOpcode | invalidInput => exact .append _ (by decide)
  | returnStackUnderflow site | divisionByZero site | programCounterOutOfRange site =>
    exact site.endsPlain_text.append _
  | addressOutOfRange address => exact (endsPlain_int address).append _
  | memoryExhausted | inputExhausted | undecodableInput | outputFull => decide

namespace LoadError

theorem endsPlain_message (e : LoadError) : EndsPlain e.message := by
  cases e with
  | unreadable failure => exact .append _ (.append _ (by decide))
  | truncatedWord | programTooLarge => exact .append _ (by decide)

theorem newline_not_mem_message {e : LoadError}
    (h : ∀ failure, e = .unreadable failure → '\n' ∉ failure.reason.toList) :
    '\n' ∉ e.message.toList := by
  unfold message
  cases e with
  | unreadable failure =>
    have hreason := h failure rfl
    unfold ReadFailure.message
    simp [hreason, newline_not_mem_toDigits]
  | truncatedWord | programTooLarge => simp [newline_not_mem_toDigits]

end LoadError

/-! ## Reasons -/

/-- The texts that a system has for its errors are one line each. -/
theorem ReadFailure.newline_not_mem_reason :
    ∀ failure ∈ ReadFailure.known, '\n' ∉ failure.reason.toList := by
  decide

namespace Folder

variable {folder : Folder} {failure : ReadFailure}

theorem enter_error {place : Place} {name : String} (h : folder.enter place name = .error failure) :
    failure ∈ ReadFailure.known := by
  unfold enter at h
  cases place <;> dsimp only at h <;> repeat' split at h
  all_goals cases h
  all_goals decide

theorem foldlM_enter_error {names : List String} : ∀ {place : Place},
    names.foldlM folder.enter place = .error failure → failure ∈ ReadFailure.known := by
  induction names with
  | nil => exact nofun
  | cons name names ih =>
    intro place h
    rw [List.foldlM_cons] at h
    cases hstep : folder.enter place name with
    | error f =>
      rw [hstep] at h
      cases h
      exact enter_error hstep
    | ok next =>
      rw [hstep] at h
      exact ih h

/-- A folder has a known reason for everything that it does not read. -/
theorem read_error {path : String} (h : folder.read path = .error failure) :
    failure ∈ ReadFailure.known := by
  unfold read at h
  by_cases hempty : path.isEmpty = true
  · rw [if_pos hempty] at h
    cases h
    decide
  rw [if_neg hempty] at h
  by_cases hlong : maxPath < path.utf8ByteSize
  · simp only [if_pos hlong] at h
    cases h
    decide
  simp only [if_neg hlong] at h
  cases hplace : (names path).foldlM folder.enter
      (if path.startsWith "/" = true then Place.outside else Place.inside) with
  | error f =>
    rw [hplace] at h
    cases h
    exact foldlM_enter_error hplace
  | ok place =>
    rw [hplace] at h
    cases place <;> cases h <;> decide

end Folder

end StackMachine
