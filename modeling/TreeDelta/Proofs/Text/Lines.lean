import TreeDelta.Proofs.Text.Bytes

/-!
# Lines and positions

A text is cut into lines after each line feed, so only the last line may be without one. A location
stands in one of these lines: that of its number, or the first or the last one if there is no such
line. What stands in front of its position are the lines before, and as many characters of the line
as its column says, as far as there are as many in front of the line feed.
-/

namespace TreeDelta.Text

/-! ## Lines -/

/-- The lines of a text, which is cut after each line feed. Only the last line may be without a line
feed, and it is not empty. -/
inductive IsCut : List Char → List (List Char) → Prop where
  | nothing : IsCut [] []
  | last {line : List Char} (filled : line ≠ []) (unbroken : '\n' ∉ line) : IsCut line [line]
  | line {line rest : List Char} {lines : List (List Char)} (unbroken : '\n' ∉ line)
      (further : IsCut rest lines) : IsCut (line ++ '\n' :: rest) ((line ++ ['\n']) :: lines)

/-- A text has the lines that it is cut into. -/
theorem cut_lines_cut (text : List Char) : IsCut text (cutLines text) := by
  induction text with
  | nil => exact .nothing
  | cons c rest inductionHypothesis =>
    rw [cutLines]
    by_cases feed : c = '\n'
    · rw [if_pos feed, feed]
      exact @IsCut.line [] rest _ List.not_mem_nil inductionHypothesis
    · rw [if_neg feed]
      have other : '\n' ≠ c := Ne.symm feed
      -- The character belongs to the first line of the rest, whatever ends that.
      generalize cutLines rest = lines at inductionHypothesis
      cases inductionHypothesis with
      | nothing => exact .last (List.cons_ne_nil c []) (by simpa using other)
      | last filled unbroken =>
        exact .last (List.cons_ne_nil c _) (List.not_mem_cons_of_ne_of_not_mem other unbroken)
      | line unbroken further =>
        exact .line (List.not_mem_cons_of_ne_of_not_mem other unbroken) further

/-- A line without a line feed is cut from what begins with it only behind the next line feed. -/
theorem cut_line {line : List Char} (unbroken : '\n' ∉ line) (rest : List Char) :
    cutLines (line ++ '\n' :: rest) = (line ++ ['\n']) :: cutLines rest := by
  induction line with
  | nil => rw [List.nil_append, cutLines, if_pos rfl, List.nil_append]
  | cons c others inductionHypothesis =>
    obtain ⟨other, further⟩ := List.ne_and_not_mem_of_not_mem_cons unbroken
    rw [List.cons_append, cutLines, if_neg (Ne.symm other), inductionHypothesis further]
    rfl

/-- A text without a line feed is one line. -/
theorem cut_last {line : List Char} (filled : line ≠ []) (unbroken : '\n' ∉ line) :
    cutLines line = [line] := by
  induction line with
  | nil => exact absurd rfl filled
  | cons c others inductionHypothesis =>
    obtain ⟨other, further⟩ := List.ne_and_not_mem_of_not_mem_cons unbroken
    rw [cutLines, if_neg (Ne.symm other)]
    cases others with
    | nil => rfl
    | cons next rest => rw [inductionHypothesis (List.cons_ne_nil next rest) further]

/-- No text has other lines. -/
theorem IsCut.eq {text : List Char} {lines : List (List Char)} (cut : IsCut text lines) :
    cutLines text = lines := by
  induction cut with
  | nothing => rfl
  | last filled unbroken => exact cut_last filled unbroken
  | line unbroken further inductionHypothesis =>
    rw [cut_line unbroken, inductionHypothesis]

/-- The lines of a text make up the text. -/
theorem IsCut.flatten {text : List Char} {lines : List (List Char)} (cut : IsCut text lines) :
    lines.flatten = text := by
  rw [← cut.eq, flatten_cutLines]

/-- No line is empty. -/
theorem IsCut.filled {text : List Char} {lines : List (List Char)} (cut : IsCut text lines) :
    [] ∉ lines := by
  induction cut with
  | nothing => exact List.not_mem_nil
  | last filled unbroken => simpa using filled
  | line unbroken further inductionHypothesis => simpa using inductionHypothesis

/-- Only the empty text has no lines. -/
theorem cut_lines_nil_iff (text : List Char) : cutLines text = [] ↔ text = [] := by
  constructor
  · intro none
    rw [← flatten_cutLines text, none, List.flatten_nil]
  · rintro rfl
    rfl

/-- The characters of a line without the line feed that ends it. -/
def IsContent (line content : List Char) : Prop :=
  '\n' ∉ content ∧ (line = content ∨ line = content ++ ['\n'])

/-- A line without its line feed is its content. -/
theorem IsContent.eq {line content : List Char} (is : IsContent line content) :
    lineContent line = content := by
  obtain ⟨unbroken, rfl | rfl⟩ := is
  · rw [lineContent, if_neg]
    exact fun ended => unbroken (List.mem_of_getLast? ended)
  · simp [lineContent]

/-- Each line of a text has a content. -/
theorem IsCut.content {text : List Char} {lines : List (List Char)} (cut : IsCut text lines)
    {line : List Char} (member : line ∈ lines) : ∃ content, IsContent line content := by
  induction cut with
  | nothing => cases member
  | last filled unbroken => exact ⟨_, unbroken, .inl (List.mem_singleton.mp member)⟩
  | line unbroken further inductionHypothesis =>
    rcases List.mem_cons.mp member with rfl | later
    · exact ⟨_, unbroken, .inr rfl⟩
    · exact inductionHypothesis later

/-! ## Positions -/

/-- A position in a line comes behind the lines before and no further than the content. -/
theorem position_among_line (column : Nat) (earlier later : List (List Char)) (line : List Char) :
    positionAmong column earlier.length (earlier ++ line :: later) =
      earlier.flatten.length + min column (lineContent line).length := by
  induction earlier with
  | nil => simp [positionAmong]
  | cons first others inductionHypothesis =>
    cases shape : others ++ line :: later with
    | nil => simp at shape
    | cons next rest =>
      rw [List.cons_append, shape, List.length_cons, positionAmong, ← shape, inductionHypothesis,
        List.flatten_cons, List.length_append, Nat.add_assoc]

/-- No number of steps leads further down than to the last line. -/
theorem position_among_last (column steps : Nat) (lines : List (List Char)) :
    positionAmong column steps lines =
      positionAmong column (min steps (lines.length - 1)) lines := by
  induction lines generalizing steps with
  | nil => simp [positionAmong]
  | cons line rest inductionHypothesis =>
    cases steps with
    | zero => simp
    | succ steps =>
      cases rest with
      | nil => simp [positionAmong]
      | cons next others =>
        rw [positionAmong, inductionHypothesis]
        simp only [List.length_cons, Nat.add_sub_cancel, Nat.add_min_add_right, positionAmong]

/-- The number of the line that a location stands in, counted from one: that of the location, or
that of the first or the last line if there is no such line. -/
def lineNumber (text : List Char) (location : Location) : Nat :=
  max 1 (min location.line (cutLines text).length)

/-- There is a line that a location stands in, if the text is not empty. -/
theorem line_of_location {text : List Char} (filled : text ≠ []) (location : Location) :
    ∃ earlier line later, cutLines text = earlier ++ line :: later ∧
      earlier.length + 1 = lineNumber text location := by
  have lined : 0 < (cutLines text).length := by
    rwa [List.length_pos_iff, ne_eq, cut_lines_nil_iff]
  obtain ⟨steps, number⟩ : ∃ steps, lineNumber text location = steps + 1 :=
    ⟨lineNumber text location - 1, by rw [lineNumber]; omega⟩
  have inside : steps < (cutLines text).length := by
    rw [lineNumber] at number
    omega
  refine ⟨(cutLines text).take steps, (cutLines text)[steps], (cutLines text).drop (steps + 1),
    ?_, ?_⟩
  · rw [← List.drop_eq_getElem_cons inside, List.take_append_drop]
  · rw [number, List.length_take_of_le (Nat.le_of_lt inside)]

/-- The position of a location lies behind the lines before the one that it stands in, and no
further behind than the content of that line. -/
theorem position_eq {text : List Char} {location : Location} {earlier later : List (List Char)}
    {line : List Char} (split : cutLines text = earlier ++ line :: later)
    (number : earlier.length + 1 = lineNumber text location) :
    position text location =
      earlier.flatten.length + min location.column (lineContent line).length := by
  have down : min (location.line - 1) ((cutLines text).length - 1) = earlier.length := by
    rw [lineNumber] at number
    have lengths := congrArg List.length split
    rw [List.length_append, List.length_cons] at lengths
    omega
  rw [position, position_among_last, down, split, position_among_line]

/-- In front of the position of a location in a text that is not empty are the lines before the one
that it stands in, and a part of the content of that line. -/
theorem position_in_line {text : List Char} (filled : text ≠ []) (location : Location) :
    ∃ earlier line later content, cutLines text = earlier ++ line :: later ∧
      earlier.length + 1 = lineNumber text location ∧ IsContent line content ∧
      text.take (position text location) =
        earlier.flatten ++ content.take (min location.column content.length) := by
  obtain ⟨earlier, line, later, split, number⟩ := line_of_location filled location
  have cut := cut_lines_cut text
  rw [split] at cut
  obtain ⟨content, is⟩ := cut.content (List.mem_append_right earlier List.mem_cons_self)
  have part : content <+: line ++ later.flatten := by
    obtain ⟨-, rfl | rfl⟩ := is
    · exact List.prefix_append line _
    · rw [List.append_assoc]
      exact List.prefix_append content _
  obtain ⟨further, part⟩ := part
  refine ⟨earlier, line, later, content, split, number, is, ?_⟩
  rw [position_eq split number, is.eq, ← cut.flatten, List.flatten_append, List.flatten_cons,
    List.take_length_add_append, ← part, List.take_append_of_le_length (Nat.min_le_right _ _)]

/-- The offset of a location counts the bytes of the lines before and of a part of its line. -/
theorem offset_in_line {text : List Char} (filled : text ≠ []) (location : Location) :
    ∃ earlier line later content, cutLines text = earlier ++ line :: later ∧
      earlier.length + 1 = lineNumber text location ∧ IsContent line content ∧
      offset text location = byteCount earlier.flatten +
        byteCount (content.take (min location.column content.length)) := by
  obtain ⟨earlier, line, later, content, split, number, is, front⟩ :=
    position_in_line filled location
  refine ⟨earlier, line, later, content, split, number, is, ?_⟩
  rw [offset, front, byte_count_append]

end TreeDelta.Text
