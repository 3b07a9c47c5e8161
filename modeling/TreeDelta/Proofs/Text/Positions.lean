import Mathlib.Data.List.DropRight
import TreeDelta.Proofs.Text.Lines

/-!
# The location of a position

The location of a position is told from the text in front of it: each line feed begins a line, and
the characters behind the last line feed are the columns. The position of this location is the same
position again, with one exception. Behind a line feed that ends the text there is no line any more,
since lines are not empty. A location there means the last line, and since its column is zero, the
beginning of that line.
-/

namespace TreeDelta.Text

/-- The location of the position behind a text. -/
def locationBehind (text : List Char) : Location :=
  ⟨1 + text.count '\n', (text.rtakeWhile (· ≠ '\n')).length⟩

/-- Without a line feed all characters are columns of the first line. -/
theorem location_behind_line {line : List Char} (unbroken : '\n' ∉ line) :
    locationBehind line = ⟨1, line.length⟩ := by
  have columns : line.rtakeWhile (· ≠ '\n') = line := by
    rw [List.rtakeWhile_eq_self_iff]
    intro c member
    exact decide_eq_true fun feed => unbroken (feed ▸ member)
  rw [locationBehind, columns, List.count_eq_zero_of_not_mem unbroken]

/-- A line in front moves a location one line down. -/
theorem location_behind_lines {line : List Char} (unbroken : '\n' ∉ line) (rest : List Char) :
    locationBehind (line ++ '\n' :: rest) =
      ⟨(locationBehind rest).line + 1, (locationBehind rest).column⟩ := by
  have columns : (line ++ '\n' :: rest).rtakeWhile (· ≠ '\n') = rest.rtakeWhile (· ≠ '\n') := by
    rw [List.rtakeWhile, List.rtakeWhile, List.reverse_append, List.reverse_cons,
      List.append_assoc, List.takeWhile_append]
    split
    · rename_i unbrokenRest
      rw [List.IsPrefix.eq_of_length (List.takeWhile_prefix _) unbrokenRest]
      simp
    · rfl
  have feeds : (line ++ '\n' :: rest).count '\n' = rest.count '\n' + 1 := by
    rw [List.count_append, List.count_eq_zero_of_not_mem unbroken, List.count_cons_self,
      Nat.zero_add]
  rw [locationBehind, columns, feeds]
  rfl

/-- What ends a text does not depend on the lines in front, if there is something behind them. -/
theorem last_behind_line (line : List Char) {rest : List Char} (filled : rest ≠ []) :
    (line ++ '\n' :: rest).getLast? = rest.getLast? := by
  obtain ⟨last, ends⟩ := Option.ne_none_iff_exists'.mp (List.getLast?_eq_none_iff.not.mpr filled)
  simp [List.getLast?_append, List.getLast?_cons, ends]

/-- A text that ends with a line feed has as many lines as line feeds. -/
theorem lines_of_ended {text : List Char} {lines : List (List Char)} (cut : IsCut text lines)
    (ended : text.getLast? = some '\n') : lines.length = text.count '\n' := by
  induction cut with
  | nothing => rfl
  | last filled unbroken => exact absurd (List.mem_of_getLast? ended) unbroken
  | @line line rest lines unbroken further inductionHypothesis =>
    rw [List.count_append, List.count_eq_zero_of_not_mem unbroken, List.count_cons_self,
      List.length_cons, Nat.zero_add]
    cases further with
    | nothing => rfl
    | last filled unbrokenRest =>
      rw [last_behind_line line filled] at ended
      rw [inductionHypothesis ended]
    | line unbrokenRest others =>
      rw [last_behind_line line (by simp)] at ended
      rw [inductionHypothesis ended]

/-- In a line that begins with a text there is room for its characters. -/
theorem position_in_first {line : List Char} (unbroken : '\n' ∉ line) (behind : List Char) :
    position (line ++ behind) ⟨1, line.length⟩ = line.length := by
  have inFirst {first content : List Char} {others : List (List Char)}
      (cut : cutLines (line ++ behind) = first :: others) (is : IsContent first content)
      (room : line <+: content) : position (line ++ behind) ⟨1, line.length⟩ = line.length := by
    rw [position, cut, Nat.sub_self, positionAmong, is.eq, Nat.min_eq_left room.length_le]
  by_cases empty : line ++ behind = []
  · obtain ⟨rfl, rfl⟩ := List.append_eq_nil_iff.mp empty
    rfl
  · have cutBehind := cut_lines_cut behind
    generalize cutLines behind = lines at cutBehind
    cases cutBehind with
    | nothing =>
      rw [List.append_nil] at empty inFirst ⊢
      exact inFirst (cut_last empty unbroken) ⟨unbroken, .inl rfl⟩ (List.prefix_refl line)
    | last filled unbrokenRest =>
      have unbrokenBoth : '\n' ∉ line ++ behind := by simp [unbroken, unbrokenRest]
      exact inFirst (cut_last empty unbrokenBoth) ⟨unbrokenBoth, .inl rfl⟩
        (List.prefix_append line behind)
    | @line more rest lines unbrokenRest further =>
      have unbrokenBoth : '\n' ∉ line ++ more := by simp [unbroken, unbrokenRest]
      rw [← List.append_assoc] at inFirst ⊢
      exact inFirst (cut_line unbrokenBoth rest) ⟨unbrokenBoth, .inr rfl⟩
        (List.prefix_append line more)

/-- The location of a position is found at the position, unless it stands behind the line feed that
ends the text. -/
theorem position_behind {before behind : List Char}
    (inside : behind = [] → before.getLast? ≠ some '\n') :
    position (before ++ behind) (locationBehind before) = before.length := by
  have cut := cut_lines_cut before
  generalize cutLines before = lines at cut
  induction cut with
  | nothing => exact position_in_first List.not_mem_nil behind
  | last filled unbroken => rw [location_behind_line unbroken, position_in_first unbroken]
  | @line line rest lines unbroken further inductionHypothesis =>
    have filled : rest ++ behind ≠ [] := by
      rintro empty
      obtain ⟨rfl, rfl⟩ := List.append_eq_nil_iff.mp empty
      simp at inside
    have insideRest : behind = [] → rest.getLast? ≠ some '\n' := by
      rintro rfl
      rw [List.append_nil] at filled
      rw [← last_behind_line line filled]
      exact inside rfl
    obtain ⟨next, others, cut⟩ := List.exists_cons_of_ne_nil ((cut_lines_nil_iff _).not.mpr filled)
    have below := inductionHypothesis insideRest
    rw [position, cut] at below
    rw [location_behind_lines unbroken, position, List.append_assoc, List.cons_append,
      cut_line unbroken, cut]
    have down : (locationBehind rest).line - 1 + 1 = (locationBehind rest).line :=
      Nat.sub_add_cancel (Nat.le_add_right 1 _)
    rw [Nat.add_sub_cancel, ← down, positionAmong, below]
    simp only [List.length_append, List.length_cons, List.length_nil]
    omega

/-- Behind the line feed that ends a text there is no line any more, and the location means the
beginning of the last line. -/
theorem position_at_end {text : List Char} (ended : text.getLast? = some '\n') :
    ∃ lines last, IsCut text (lines ++ [last]) ∧
      text.take (position text (locationBehind text)) = lines.flatten := by
  have filled : text ≠ [] := by
    rintro rfl
    cases ended
  have cut := cut_lines_cut text
  obtain ⟨earlier, line, later, content, split, number, is, front⟩ :=
    position_in_line filled (locationBehind text)
  have beyond : (locationBehind text).line = (cutLines text).length + 1 := by
    rw [lines_of_ended cut ended, Nat.add_comm]
    rfl
  have column : (locationBehind text).column = 0 := by
    rw [locationBehind, List.length_eq_zero_iff, List.rtakeWhile_eq_nil_iff]
    intro filled
    rw [List.getLast?_eq_some_getLast filled] at ended
    simp [Option.some.inj ended]
  have last : later = [] := by
    have lengths := congrArg List.length split
    rw [lineNumber, beyond] at number
    rw [List.length_append, List.length_cons] at lengths
    exact List.eq_nil_of_length_eq_zero (by omega)
  rw [split, last] at cut
  rw [column, Nat.zero_min, List.take_zero, List.append_nil] at front
  exact ⟨earlier, line, cut, front⟩

/-- At the line and the column that are counted in the part of a text in front of a position the
offset of that position is found, wherever the position stands, unless the text ends there with a
line feed. The line is then one too many, and the location stands for the beginning of the last
line.

Inside the text, looking the location up finds the position that it was counted at. Behind a line
feed at the end there is no such line, and the beginning of the last one is in front of the end,
because no line is empty. -/
theorem offset_of_position (before behind : List Char) :
    (offset (before ++ behind) (locationBehind before) = byteCount before ↔
        ¬(behind = [] ∧ before.getLast? = some '\n')) ∧
      (before.getLast? = some '\n' → ∃ lines last, IsCut before (lines ++ [last]) ∧
        offset before (locationBehind before) = byteCount lines.flatten) := by
  have atEnd (ended : before.getLast? = some '\n') : ∃ lines last,
      IsCut before (lines ++ [last]) ∧
        offset before (locationBehind before) = byteCount lines.flatten := by
    obtain ⟨lines, last, cut, front⟩ := position_at_end ended
    exact ⟨lines, last, cut, by rw [offset, front]⟩
  refine ⟨⟨?_, fun inside => ?_⟩, atEnd⟩
  · rintro found ⟨rfl, ended⟩
    obtain ⟨lines, last, cut, start⟩ := atEnd ended
    rw [List.append_nil, start, ← cut.flatten, List.flatten_append, List.flatten_singleton,
      byte_count_append] at found
    have nothing : last = [] := (byte_count_zero_iff last).mp (by omega)
    exact cut.filled (List.mem_append_right lines (List.mem_singleton.mpr nothing.symm))
  · rw [not_and] at inside
    rw [offset, position_behind inside, List.take_left]

/-- A letter of two bytes in front of the position counts twice. Behind the line feed at the end of
a text the location means the beginning of the line that the line feed ends. -/
theorem letters_found :
    let text := ['x', '\n', 'é', '\n']
    locationBehind ['x', '\n', 'é'] = ⟨2, 1⟩ ∧ offset text ⟨2, 1⟩ = 4 ∧
      locationBehind text = ⟨3, 0⟩ ∧ offset text ⟨3, 0⟩ = 2 := by
  intro text
  have inside : offset text ⟨2, 1⟩ = 4 :=
    (offset_of_position ['x', '\n', 'é'] ['\n']).1.mpr (by decide)
  obtain ⟨lines, last, cut, start⟩ := (offset_of_position text []).2 rfl
  have pieces : [['x', '\n']] ++ [['é', '\n']] = lines ++ [last] := cut.eq
  rw [← List.append_inj_left' pieces rfl] at start
  exact ⟨rfl, inside, rfl, start⟩

/-- Three bytes stand in front of the end of the text, and its location is found in front of all of
them. -/
theorem end_of_text_missed :
    let text := ['a', 'b', '\n']
    locationBehind text = ⟨2, 0⟩ ∧ byteCount text = 3 ∧ offset text ⟨2, 0⟩ = 0 ∧
      offset text (locationBehind text) ≠ byteCount text := by
  decide

end TreeDelta.Text
