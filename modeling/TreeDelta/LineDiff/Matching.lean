import TreeDelta.LineDiff.Script
import TreeDelta.LineDiff.Snake

/-!
# Matching two sequences

What two sequences have in common at their beginnings and ends is kept. If one of them has nothing
else, the rest of the other is deleted or inserted. Otherwise both are split where their middle
snake begins, and the two halves are matched on their own. A split that leaves one half with
everything would lead nowhere; the rest of the old sequence is then deleted and that of the new one
inserted.
-/

namespace TreeDelta.LineDiff

variable {α : Type} [DecidableEq α]

/-- The items that two sequences share at their beginnings. -/
def commonStart (old new : List α) : List α := old.take (commonLength old new)

/-- The number of items that two sequences share at their ends. -/
def commonEndLength (old new : List α) : Nat := commonLength old.reverse new.reverse

/-- Whether a point splits two sequences into two halves that are both smaller than the whole. -/
def splits (old new : List α) (x y : Nat) : Prop :=
  x ≤ old.length ∧ y ≤ new.length ∧ 0 < x + y ∧ x + y < old.length + new.length

instance (old new : List α) (x y : Nat) : Decidable (splits old new x y) := by
  unfold splits
  infer_instance

/-- A script that turns the old sequence into the new one. -/
def matching (old new : List α) : List (Run α) :=
  let start := commonLength old new
  let oldRest := old.drop start
  let newRest := new.drop start
  let stop := commonEndLength oldRest newRest
  let oldMiddle := oldRest.take (oldRest.length - stop)
  let newMiddle := newRest.take (newRest.length - stop)
  let middle :=
    if oldMiddle.isEmpty then insertRun newMiddle
    else if newMiddle.isEmpty then deleteRun oldMiddle
    else
      match middleSnake? oldMiddle newMiddle with
      | some (x, y) =>
        if splits oldMiddle newMiddle x y then
          matching (oldMiddle.take x) (newMiddle.take y)
            ++ matching (oldMiddle.drop x) (newMiddle.drop y)
        else deleteRun oldMiddle ++ insertRun newMiddle
      | none => deleteRun oldMiddle ++ insertRun newMiddle
  equalRun (commonStart old new) ++ middle ++ equalRun (oldRest.drop (oldRest.length - stop))
termination_by old.length + new.length
decreasing_by
  all_goals
    rename_i within
    have oldShorter : oldMiddle.length ≤ old.length := by grind
    have newShorter : newMiddle.length ≤ new.length := by grind
    obtain ⟨inOld, inNew, begun, unfinished⟩ := within
    simp only [List.length_take, List.length_drop]
    omega

end TreeDelta.LineDiff
