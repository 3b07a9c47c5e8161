import Mathlib.Data.String.Basic
import Mathlib.Order.Monotone.Basic
import TreeDelta.Text.Position

/-!
# Texts as bytes

A position between two characters is an offset in bytes: the number of bytes that the characters in
front of it take. To cut a text at byte offsets can fail, since an offset may lie behind the end or
inside a character, and two offsets may be in the wrong order. It does not fail if the offsets are
those of two parts of the text that stand in front of all others, one inside the other, and what is
cut out is then what the longer part has more.
-/

namespace TreeDelta.Text

/-- The stretch of a text between two byte offsets. There is none if the offsets are in the wrong
order, or if one of them lies behind the end or inside a character. -/
def slice? (text : String) (first last : Nat) : Option String :=
  if first ≤ last ∧ String.Pos.Raw.isValid text ⟨first⟩ ∧ String.Pos.Raw.isValid text ⟨last⟩ then
    some (String.Pos.Raw.extract text ⟨first⟩ ⟨last⟩)
  else none

/-- Bytes are counted as in a string. -/
theorem byte_count_eq (text : List Char) : byteCount text = String.utf8Len text := by
  induction text with
  | nil => rfl
  | cons c rest inductionHypothesis =>
    rw [String.utf8Len_cons, ← inductionHypothesis, Nat.add_comm]
    rfl

/-- A string takes the bytes of its characters. -/
theorem byte_size_eq (text : List Char) : (String.ofList text).utf8ByteSize = byteCount text := by
  rw [String.utf8ByteSize_ofList, byte_count_eq]

/-- Two texts, one behind the other, take the bytes of both. -/
@[simp] theorem byte_count_append (first second : List Char) :
    byteCount (first ++ second) = byteCount first + byteCount second := by
  simp [byte_count_eq]

/-- Only the empty text takes no bytes. -/
theorem byte_count_zero_iff (text : List Char) : byteCount text = 0 ↔ text = [] := by
  rw [byte_count_eq, String.utf8Len_eq_zero]

/-- A longer part of the beginning takes no fewer bytes. -/
theorem byte_count_take_mono (text : List Char) {few many : Nat} (order : few ≤ many) :
    byteCount (text.take few) ≤ byteCount (text.take many) := by
  rw [byte_count_eq, byte_count_eq]
  exact String.utf8Len_le_of_prefix (List.take_prefix_take_left order)

/-- The later of two positions has the greater offset. -/
theorem byte_count_take_max (text : List Char) (first second : Nat) :
    byteCount (text.take (max first second)) =
      max (byteCount (text.take first)) (byteCount (text.take second)) := by
  have mono : Monotone fun position => byteCount (text.take position) :=
    fun _ _ order => byte_count_take_mono text order
  exact mono.map_max

/-- Between two parts of a text there is no half of a character. -/
theorem between_characters (before behind : List Char) :
    String.Pos.Raw.IsValid (String.ofList (before ++ behind)) ⟨byteCount before⟩ :=
  String.Pos.Raw.isValid_ofList.mpr
    ⟨before.length, by rw [List.take_left, byte_size_eq]⟩

/-- A part of a text is what stands between the bytes in front of it and those in front of its
end. -/
theorem slice_part (before inside behind : List Char) :
    slice? (String.ofList (before ++ inside ++ behind)) (byteCount before)
      (byteCount (before ++ inside)) = some (String.ofList inside) := by
  have order : byteCount before ≤ byteCount (before ++ inside) := by simp
  have first : String.Pos.Raw.IsValid (String.ofList (before ++ inside ++ behind))
      ⟨byteCount before⟩ := by
    rw [List.append_assoc]
    exact between_characters before (inside ++ behind)
  have last := between_characters (before ++ inside) behind
  have part : String.Pos.Raw.extract (String.ofList (before ++ inside ++ behind))
      ⟨byteCount before⟩ ⟨byteCount (before ++ inside)⟩ = String.ofList inside := by
    rw [byte_count_append, byte_count_eq, byte_count_eq]
    exact String.extract_of_valid before inside behind
  rw [← String.Pos.Raw.isValid_eq_true_iff] at first last
  rw [slice?, if_pos ⟨order, first, last⟩, part]

example : slice? "né" 1 3 = some "é" ∧ slice? "né" 1 2 = none := by decide

end TreeDelta.Text
