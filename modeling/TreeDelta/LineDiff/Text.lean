import TreeDelta.LineDiff.Hunk
import TreeDelta.Outline

/-!
# Line diffs of outlines

The outlines of two trees are compared line by line. A line ends after a line feed, a carriage
return, or both in this order, and what ends it belongs to it. Deleted lines are marked by a minus
sign, inserted ones by a plus sign, and lines that both outlines have by a blank. A line of three
points stands between two hunks.
-/

namespace TreeDelta.LineDiff

/-- Put a character in front of the first of a list of lines. -/
def addToFirst (c : Char) : List (List Char) → List (List Char)
  | [] => [[c]]
  | first :: rest => (c :: first) :: rest

/-- Cut a text into lines, each with what ends it. -/
def cutLines : List Char → List (List Char)
  | [] => []
  | '\r' :: '\n' :: rest => ['\r', '\n'] :: cutLines rest
  | c :: rest =>
    if c = '\n' ∨ c = '\r' then [c] :: cutLines rest else addToFirst c (cutLines rest)

/-- A line behind its mark, ended by a line feed if it is not yet. -/
def markedLine (mark : Char) (line : List Char) : List Char :=
  mark :: ' ' :: (if line.getLast? = some '\n' then line else line ++ ['\n'])

/-- The marked lines of a block. -/
def blockText : Block (List Char) → List Char
  | .equal lines => lines.flatMap (markedLine ' ')
  | .change deleted inserted =>
    deleted.flatMap (markedLine '-') ++ inserted.flatMap (markedLine '+')

/-- The line between two hunks. -/
def gapLine : List Char := ['.', '.', '.', '\n']

/-- The text of a list of hunks. -/
def hunksText (hunks : List (List (Block (List Char)))) : List Char :=
  gapLine.intercalate (hunks.map fun hunk => hunk.flatMap blockText)

/-- The line diff of the outlines of two trees. -/
def ofTrees (options : Outline.Options) (context : Nat) (old new : SyntaxTree) : String :=
  let linesOf (tree : SyntaxTree) := cutLines (Outline.render options 0 tree ++ ['\n'])
  String.ofList (hunksText (hunks context (linesOf old) (linesOf new)))

end TreeDelta.LineDiff
