import TreeDelta.Node
import TreeDelta.Text.Position

/-!
# The stretch of text of a node

A node may say where its text begins and ends. Where it does not, both are inferred. It begins where
the earliest of its children begins. It ends where the first of its later siblings that has a
beginning begins, and where its parent ends if there is no such sibling; so an end may be found
anywhere on the way up, and a beginning only on the way down.

An inferred end may lie in front of the beginning. The stretch is then empty and stands at the
beginning.
-/

namespace TreeDelta.Span

mutual

/-- Where the text of a tree begins: the written beginning, or the earliest of its children's. -/
def start? : SyntaxTree → Option Location
  | .node top branches =>
    match top.start? with
    | some location => some location
    | none => Location.earliest? (starts branches)

/-- Where the trees of a list of branches begin, as far as they do. -/
def starts : List (String × SyntaxTree) → List Location
  | [] => []
  | (_, child) :: rest =>
    match start? child with
    | some location => location :: starts rest
    | none => starts rest

end

/-- Where the first later sibling that has a beginning begins. -/
def nextStart? (step : Step Node) : Option Location :=
  (step.tree.children.drop (step.index + 1)).findSome? start?

/-- Where the text of a tree ends, given the steps up from it. -/
def stopBelow? (tree : SyntaxTree) (above : List (Step Node)) : Option Location :=
  match tree.label.stop?, above with
  | some location, _ => some location
  | none, [] => none
  | none, step :: further => (nextStart? step).or (stopBelow? step.tree further)

/-- Where the text at a place ends. -/
def stop? (place : Place Node) : Option Location := stopBelow? place.tree place.above

/-- The positions in a text between which a place stands, if both can be found. -/
def bounds? (place : Place Node) (text : List Char) : Option (Nat × Nat) := do
  let start ← start? place.tree
  let stop ← stop? place
  let first := Text.position text start
  return (first, max first (Text.position text stop))

/-- The text of a place. -/
def text? (place : Place Node) (text : List Char) : Option (List Char) :=
  (bounds? place text).map fun (first, last) => (text.take last).drop first

/-- What stands in front of a marked stretch. -/
def openingMark : List Char := ['>', '>', '>']

/-- What stands behind a marked stretch. -/
def closingMark : List Char := ['<', '<', '<']

/-- A text with the stretch of a place between marks. Without a stretch the text stays as it is. -/
def mark (place : Place Node) (text : List Char) : List Char :=
  match bounds? place text with
  | none => text
  | some (first, last) =>
    text.take first ++ openingMark ++ (text.take last).drop first ++ closingMark ++ text.drop last

end TreeDelta.Span
