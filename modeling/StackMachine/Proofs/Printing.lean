import StackMachine.Console.Output
import StackMachine.Proofs.Text

/-!
# Printing

A printed word is its decimal text and a line feed. These are ASCII characters, so the bytes of an
output are its characters, one for one.

* `Word.mem_decimal`: a decimal text has digits and a minus sign;
* `write_append`, `forM_print`: it does not matter in how many pieces a text is written;
* `bytes`: the bytes of an output; `length_bytes_text`, `bytes_take_text`: they are counted and cut
  like its characters.
-/
namespace StackMachine

/-! ## Decimal texts -/

theorem Word.mem_decimal {w : Word} {c : Char} (h : c ∈ w.decimal.toList) :
    c = '-' ∨ c.isDigit = true := by
  unfold decimal at h
  cases hw : w.toInt with
  | ofNat n =>
    rw [hw, Int.repr, Nat.toList_repr] at h
    exact .inr (Text.isDigit_of_mem_toDigits h)
  | negSucc n =>
    rw [hw, Int.repr, String.toList_append, Nat.toList_repr, List.mem_append] at h
    rcases h with h | h
    · exact .inl (List.mem_singleton.mp h)
    · exact .inr (Text.isDigit_of_mem_toDigits h)

theorem Word.ascii_decimal {w : Word} {c : Char} (h : c ∈ w.decimal.toList) : c.val ≤ 127 := by
  rcases mem_decimal h with rfl | hdigit
  · decide
  · have hc : c.val.toNat ≤ '9'.toNat := (Char.isDigit_iff_toNat.mp hdigit).2
    exact UInt32.le_iff_toNat_le.mpr (Nat.le_trans hc (by decide))

theorem Word.decimal_ne_nil (w : Word) : w.decimal.toList ≠ [] := by
  unfold decimal
  cases w.toInt with
  | ofNat n =>
    rw [Int.repr, Nat.toList_repr]
    exact Nat.toDigits_ne_nil
  | negSucc n => simp [Int.repr]

namespace Output

/-- The text that prints some words. -/
def text (words : List Word) : String := String.join (words.map line)

@[simp] theorem text_nil : text [] = "" := rfl

@[simp] theorem text_append (v w : List Word) : text (v ++ w) = text v ++ text w := by
  simp [text]

@[simp] theorem text_singleton (w : Word) : text [w] = line w := by
  simp [text]

theorem text_cons (w : Word) (words : List Word) : text (w :: words) = line w ++ text words := by
  simp [text]

/-- Printed texts are ASCII. -/
theorem ascii_text {words : List Word} {c : Char} (h : c ∈ (text words).toList) :
    c.val ≤ 127 := by
  induction words with
  | nil => cases h
  | cons w words ih =>
    rw [text_cons, line, String.toList_append, String.toList_append, List.mem_append,
      List.mem_append] at h
    rcases h with (h | h) | h
    · exact Word.ascii_decimal h
    · obtain rfl : c = '\n' := List.mem_singleton.mp h
      decide
    · exact ih h

/-! ## Writing -/

theorem write_of_room_none {o : Output} (h : o.room = none) (text : String) :
    write text o = .ok () ⟨o.written ++ text, none⟩ := by
  obtain ⟨written, room⟩ := o
  obtain rfl : room = none := h
  rfl

theorem write_empty (o : Output) : write "" o = .ok () o := by
  obtain ⟨written, room⟩ := o
  cases room <;> simp [write]

/-- Writing two texts is writing them as one. If one of them does not fit, what fits of both is the
same too. -/
theorem write_append (a b : String) (o : Output) :
    write (a ++ b) o = EStateM.bind (write a) (fun _ => write b) o := by
  obtain ⟨written, room⟩ := o
  unfold EStateM.bind write
  cases room with
  | none => simp [String.append_assoc]
  | some n =>
    dsimp only
    by_cases ha : a.length ≤ n
    · rw [if_pos ha]
      dsimp only
      by_cases hb : b.length ≤ n - a.length
      · have hab : (a ++ b).length ≤ n := by rw [String.length_append]; omega
        rw [if_pos hb, if_pos hab, String.length_append, Nat.sub_sub, String.append_assoc]
      · have hab : ¬ (a ++ b).length ≤ n := by rw [String.length_append]; omega
        rw [if_neg hb, if_neg hab, String.toList_append, List.take_append, String.length_toList,
          List.take_of_length_le (by rwa [String.length_toList]), String.ofList_append,
          String.ofList_toList, String.append_assoc]
    · have hab : ¬ (a ++ b).length ≤ n := by rw [String.length_append]; omega
      rw [if_neg ha, if_neg hab, String.toList_append, List.take_append_of_le_length]
      rw [String.length_toList]
      omega

theorem write_append_eq_ok_iff {a b : String} {o p : Output} :
    write (a ++ b) o = .ok () p ↔ ∃ q, write a o = .ok () q ∧ write b q = .ok () p := by
  rw [write_append]
  unfold EStateM.bind
  cases write a o <;> simp

theorem write_append_eq_error_iff {a b : String} {o p : Output} {f : Fault} :
    write (a ++ b) o = .error f p ↔
      write a o = .error f p ∨ ∃ q, write a o = .ok () q ∧ write b q = .error f p := by
  rw [write_append]
  unfold EStateM.bind
  cases write a o <;> simp

/-- Printing words in order is writing their text. -/
theorem forM_print (words : List Word) (o : Output) :
    words.forM print o = write (text words) o := by
  induction words generalizing o with
  | nil => exact (write_empty o).symm
  | cons w words ih =>
    rw [text_cons, write_append]
    show EStateM.bind (write (line w)) _ o = _
    unfold EStateM.bind
    cases write (line w) o with
    | ok _ o => exact ih o
    | error f o => rfl

/-- An empty port takes a text that is no longer than its limit. -/
theorem write_empty_eq_ok_iff {text : String} {limit : Nat} {o : Output} :
    write text (.empty (some limit)) = .ok () o ↔
      text.length ≤ limit ∧ o = ⟨text, some (limit - text.length)⟩ := by
  unfold write empty
  by_cases h : text.length ≤ limit
  · simp [h, eq_comm]
  · simp [h]

/-- Of a longer text it takes what fits. -/
theorem write_empty_eq_error_iff {text : String} {limit : Nat} {o : Output} {f : Fault} :
    write text (.empty (some limit)) = .error f o ↔
      limit < text.length ∧ f = .outputFull ∧
        o = ⟨String.ofList (text.toList.take limit), some 0⟩ := by
  unfold write empty
  by_cases h : text.length ≤ limit
  · simp [h, Nat.not_lt.mpr h]
  · simp [h, Nat.lt_of_not_le h, eq_comm]

/-! ## Bytes -/

/-- The bytes of what was written. -/
def bytes (o : Output) : List UInt8 := Text.utf8 o.written.toList

theorem length_bytes_text (words : List Word) (room : Option Nat) :
    (Output.bytes ⟨text words, room⟩).length = (text words).length := by
  unfold bytes
  rw [Text.utf8_of_ascii fun _ => ascii_text, List.length_map, String.length_toList]

/-- The first characters of a printed text have its first bytes. -/
theorem bytes_take_text (words : List Word) (n : Nat) (room room' : Option Nat) :
    Output.bytes ⟨String.ofList ((text words).toList.take n), room⟩ =
      (Output.bytes ⟨text words, room'⟩).take n := by
  unfold bytes
  rw [String.toList_ofList, Text.utf8_of_ascii fun _ => ascii_text,
    Text.utf8_of_ascii fun _ h => ascii_text (List.mem_of_mem_take h), List.map_take]

end Output

end StackMachine
