import TreeDelta.LineDiff.Compaction
import TreeDelta.LineDiff.Matching

/-!
# Hunks

A script for readers consists of blocks: equal items, and changes that hold everything deleted and
then everything inserted between two stretches of equal items. Of the equal items only those near a
change are shown, at most `context` of them on either side. Where more than twice as many stand
between two changes, they are left out in the middle, and the script falls apart into hunks.
-/

namespace TreeDelta.LineDiff

variable {α : Type}

/-- A stretch of equal items, or a change between two of them. -/
inductive Block (α : Type) where
  | equal (items : List α)
  | change (deleted inserted : List α)
  deriving DecidableEq, Repr, Inhabited

/-- Add a run in front of a list of blocks. Neighbours of the same sort become one block. -/
def addRun : Run α → List (Block α) → List (Block α)
  | .equal items, .equal later :: rest => .equal (items ++ later) :: rest
  | .equal items, blocks => .equal items :: blocks
  | .delete items, .change deleted inserted :: rest => .change (items ++ deleted) inserted :: rest
  | .delete items, blocks => .change items [] :: blocks
  | .insert items, .change deleted inserted :: rest => .change deleted (items ++ inserted) :: rest
  | .insert items, blocks => .change [] items :: blocks

/-- The blocks of a script. -/
def blocks (script : List (Run α)) : List (Block α) := script.foldr addRun []

/-- The last items of a list, at most `count` of them. -/
def lastItems (count : Nat) (items : List α) : List α := items.drop (items.length - count)

/-- Keep only the last `context` items of a stretch that begins a list of blocks. -/
def trimFirst (context : Nat) : List (Block α) → List (Block α)
  | .equal items :: rest => .equal (lastItems context items) :: rest
  | blocks => blocks

/-- Keep only the first `context` items of a stretch that ends a list of blocks. -/
def trimLast (context : Nat) : List (Block α) → List (Block α)
  | [] => []
  | [.equal items] => [.equal (items.take context)]
  | block :: rest => block :: trimLast context rest

/-- Whether a list of blocks holds a change. -/
def hasChange (blocks : List (Block α)) : Bool :=
  match blocks with
  | [] | [.equal _] => false
  | _ => true

/-- Divide a list of blocks into hunks, given the blocks of the current one, latest first. A last
hunk without a change is dropped. -/
def divide (context : Nat) (current : List (Block α)) : List (Block α) → List (List (Block α))
  | [] => if hasChange current then [current.reverse] else []
  | .equal items :: rest =>
    if 2 * context < items.length then
      (.equal (items.take context) :: current).reverse
        :: divide context [.equal (lastItems context items)] rest
    else divide context (.equal items :: current) rest
  | block :: rest => divide context (block :: current) rest

/-- The hunks of two sequences with the given context. -/
def hunks [DecidableEq α] (context : Nat) (old new : List α) : List (List (Block α)) :=
  divide context [] (trimLast context (trimFirst context (blocks (compact (matching old new)))))

end TreeDelta.LineDiff
