/-!
# Scripts that turn one sequence into another

A script is a list of runs: items that both sequences have, items that only the old one has, and
items that only the new one has. A script carries its items, so the two sequences that it relates
can be read off it: leaving out the inserted runs gives the old sequence, leaving out the deleted
ones gives the new one.
-/

namespace TreeDelta.LineDiff

variable {α : Type}

/-- A run of a script. -/
inductive Run (α : Type) where
  /-- Items that both sequences have. -/
  | equal (items : List α)
  /-- Items of the old sequence only. -/
  | delete (items : List α)
  /-- Items of the new sequence only. -/
  | insert (items : List α)
  deriving DecidableEq, Repr, Inhabited

/-- The items of the old sequence in a run. -/
def Run.old : Run α → List α
  | equal items => items
  | delete items => items
  | insert _ => []

/-- The items of the new sequence in a run. -/
def Run.new : Run α → List α
  | equal items => items
  | delete _ => []
  | insert items => items

/-- The old sequence of a script. -/
def oldOf (script : List (Run α)) : List α := script.flatMap Run.old

/-- The new sequence of a script. -/
def newOf (script : List (Run α)) : List α := script.flatMap Run.new

/-- A script that consists of one run, or of none if there is nothing in it. -/
def equalRun (items : List α) : List (Run α) := if items.isEmpty then [] else [.equal items]

/-- A script that deletes the given items, if there are any. -/
def deleteRun (items : List α) : List (Run α) := if items.isEmpty then [] else [.delete items]

/-- A script that inserts the given items, if there are any. -/
def insertRun (items : List α) : List (Run α) := if items.isEmpty then [] else [.insert items]

/-- The old sequence of two scripts, one behind the other. -/
@[simp] theorem oldOf_append (first second : List (Run α)) :
    oldOf (first ++ second) = oldOf first ++ oldOf second := by simp [oldOf]

/-- The new sequence of two scripts, one behind the other. -/
@[simp] theorem newOf_append (first second : List (Run α)) :
    newOf (first ++ second) = newOf first ++ newOf second := by simp [newOf]

/-- What the first run has of the old sequence stands in front of what the others have. -/
@[simp] theorem oldOf_cons (run : Run α) (script : List (Run α)) :
    oldOf (run :: script) = run.old ++ oldOf script := by simp [oldOf]

/-- What the first run has of the new sequence stands in front of what the others have. -/
@[simp] theorem newOf_cons (run : Run α) (script : List (Run α)) :
    newOf (run :: script) = run.new ++ newOf script := by simp [newOf]

/-- A script without runs has an empty old sequence. -/
@[simp] theorem oldOf_nil : oldOf ([] : List (Run α)) = [] := rfl

/-- A script without runs has an empty new sequence. -/
@[simp] theorem newOf_nil : newOf ([] : List (Run α)) = [] := rfl

end TreeDelta.LineDiff
