import TreeDelta.Json.Reader
import TreeDelta.Json.Writer

/-!
# Layouts

The two written forms of a value differ only in the blanks between its symbols. A layout says which
blanks stand where a line may begin and which behind a colon, and one writer serves all layouts.
-/

namespace TreeDelta.Json

/-- What is written where a line may begin inside a number of containers, and behind a colon. -/
structure Layout where
  line : Nat → List Char
  gap : List Char

namespace Layout

/-- Nothing between the symbols. -/
def compact : Layout := ⟨fun _ => [], []⟩

/-- Lines that are indented by their depth. -/
def indented : Layout := ⟨lineStart, [' ']⟩

/-- Whether a layout writes nothing but separators, and ends a line before it indents the next. -/
structure Blank (layout : Layout) : Prop where
  line : ∀ depth, ∀ c ∈ layout.line depth, isSeparator c = true
  gap : ∀ c ∈ layout.gap, isSeparator c = true
  newline : ∀ depth, layout.line depth = [] ∨ ∃ indent, layout.line depth = '\n' :: indent

/-- The compact layout is blank. -/
theorem compact_blank : compact.Blank :=
  ⟨by simp [compact], by simp [compact], fun _ => .inl rfl⟩

/-- The indented layout is blank. -/
theorem indented_blank : indented.Blank := by
  refine ⟨fun depth c member => ?_, by simp [indented, isSeparator], fun depth => .inr ⟨_, rfl⟩⟩
  rcases List.mem_cons.mp member with rfl | blank
  · rfl
  · rw [List.eq_of_mem_replicate blank]
    rfl

end Layout

mutual

/-- The written form of a value inside `depth` containers. -/
def written (layout : Layout) (depth : Nat) : Value → List Char
  | .null => ['n', 'u', 'l', 'l']
  | .bool true => ['t', 'r', 'u', 'e']
  | .bool false => ['f', 'a', 'l', 's', 'e']
  | .number number => writeNumber number
  | .string text => writeString text
  | .array [] => ['[', ']']
  | .array (first :: rest) =>
    '[' :: (layout.line (depth + 1) ++ (written layout (depth + 1) first ++
      (writtenElements layout (depth + 1) rest ++ (layout.line depth ++ [']']))))
  | .object [] => ['{', '}']
  | .object ((key, value) :: rest) =>
    '{' :: (layout.line (depth + 1) ++ (writeString key ++ ':' :: (layout.gap ++
      (written layout (depth + 1) value ++
        (writtenFields layout (depth + 1) rest ++ (layout.line depth ++ ['}']))))))

/-- The further elements of an array inside `depth` containers. -/
def writtenElements (layout : Layout) (depth : Nat) : List Value → List Char
  | [] => []
  | value :: rest =>
    ',' :: (layout.line depth ++ (written layout depth value ++ writtenElements layout depth rest))

/-- The further fields of an object inside `depth` containers. -/
def writtenFields (layout : Layout) (depth : Nat) : List (String × Value) → List Char
  | [] => []
  | (key, value) :: rest =>
    ',' :: (layout.line depth ++ (writeString key ++ ':' :: (layout.gap ++
      (written layout depth value ++ writtenFields layout depth rest))))

end

mutual

/-- The compact form is that of the compact layout. -/
theorem compact_written (depth : Nat) (value : Value) :
    compact value = written .compact depth value := by
  match value with
  | .null | .number _ | .string _ | .array [] | .object [] => simp only [compact, written]
  | .bool true | .bool false => simp only [compact, written]
  | .array (first :: rest) =>
    simp [compact, written, compact_written (depth + 1) first,
      compact_elements_written (depth + 1) rest, Layout.compact]
  | .object ((key, value) :: rest) =>
    simp [compact, written, compact_written (depth + 1) value,
      compact_fields_written (depth + 1) rest, Layout.compact]

/-- The same for the further elements of an array. -/
theorem compact_elements_written (depth : Nat) (elements : List Value) :
    compactElements elements = writtenElements .compact depth elements := by
  match elements with
  | [] => rfl
  | value :: rest =>
    simp [compactElements, writtenElements, compact_written depth value,
      compact_elements_written depth rest, Layout.compact]

/-- The same for the further fields of an object. -/
theorem compact_fields_written (depth : Nat) (fields : List (String × Value)) :
    compactFields fields = writtenFields .compact depth fields := by
  match fields with
  | [] => rfl
  | (key, value) :: rest =>
    simp [compactFields, writtenFields, compact_written depth value,
      compact_fields_written depth rest, Layout.compact]

end

mutual

/-- The indented form is that of the indented layout. -/
theorem indented_written (depth : Nat) (value : Value) :
    indented depth value = written .indented depth value := by
  match value with
  | .null | .number _ | .string _ | .array [] | .object [] => simp only [indented, written]
  | .bool true | .bool false => simp only [indented, written]
  | .array (first :: rest) =>
    simp [indented, written, indented_written (depth + 1) first,
      indented_elements_written (depth + 1) rest, Layout.indented]
  | .object ((key, value) :: rest) =>
    simp [indented, written, indented_written (depth + 1) value,
      indented_fields_written (depth + 1) rest, Layout.indented]

/-- The same for the further elements of an array. -/
theorem indented_elements_written (depth : Nat) (elements : List Value) :
    indentedElements depth elements = writtenElements .indented depth elements := by
  match elements with
  | [] => rfl
  | value :: rest =>
    simp [indentedElements, writtenElements, indented_written depth value,
      indented_elements_written depth rest, Layout.indented]

/-- The same for the further fields of an object. -/
theorem indented_fields_written (depth : Nat) (fields : List (String × Value)) :
    indentedFields depth fields = writtenFields .indented depth fields := by
  match fields with
  | [] => rfl
  | (key, value) :: rest =>
    simp [indentedFields, writtenFields, indented_written depth value,
      indented_fields_written depth rest, Layout.indented]

end

end TreeDelta.Json
