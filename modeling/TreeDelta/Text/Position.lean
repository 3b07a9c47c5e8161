import TreeDelta.Location

/-!
# Positions of locations in a text

A text is cut into lines after each line feed. A location names a position between two characters:
its column counts characters from the beginning of its line. A line below one means the first line,
a line beyond the last one means the last, and a column beyond the end of its line means that end,
in front of the line feed. The empty text has one position only.

Positions count characters. The offset of a location counts the bytes of the text in front of its
position, so it lies between two characters by construction.
-/

namespace TreeDelta.Text

/-- Cut a text after each line feed. The pieces are never empty, and together they are the text. -/
def cutLines : List Char → List (List Char)
  | [] => []
  | c :: rest =>
    if c = '\n' then [c] :: cutLines rest
    else
      match cutLines rest with
      | [] => [[c]]
      | first :: others => (c :: first) :: others

/-- A line without the line feed that ends it. -/
def lineContent (line : List Char) : List Char :=
  if line.getLast? = some '\n' then line.dropLast else line

/-- The position of a column in a list of lines, `steps` lines down or in the last line, counted
from the beginning of the first. -/
def positionAmong (column : Nat) : Nat → List (List Char) → Nat
  | _, [] => 0
  | 0, line :: _ => min column (lineContent line).length
  | _ + 1, [line] => min column (lineContent line).length
  | steps + 1, line :: next :: rest => line.length + positionAmong column steps (next :: rest)

/-- The position of a location in a text. -/
def position (text : List Char) (location : Location) : Nat :=
  positionAmong location.column (location.line - 1) (cutLines text)

/-- The number of bytes that a stretch of text takes. -/
def byteCount (text : List Char) : Nat := text.foldr (fun c bytes => c.utf8Size + bytes) 0

/-- The number of bytes in front of a location. -/
def offset (text : List Char) (location : Location) : Nat :=
  byteCount (text.take (position text location))

/-- Cutting a text loses nothing. -/
theorem flatten_cutLines (text : List Char) : (cutLines text).flatten = text := by
  induction text with
  | nil => rfl
  | cons c rest inductionHypothesis =>
    rw [cutLines]
    split
    · simp [inductionHypothesis]
    · split <;> rename_i pieces <;> rw [pieces] at inductionHypothesis <;>
        simpa using inductionHypothesis

end TreeDelta.Text
