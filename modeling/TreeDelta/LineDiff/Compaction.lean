import TreeDelta.LineDiff.Script

/-!
# Compaction of scripts

An inserted run can slide over equal items without changing what the script says: if its last item
is also the last of the equal run before it, that item can be kept behind the insertion instead of
in front of it. Compaction takes the deleted runs and then the inserted ones from left to right. It
moves each as far up as it can, swapping it with runs of the other kind, merging it with runs of its
own and sliding it over equal items, and then as far down as it can. What ends up side by side
becomes one change. Deleted runs do not slide over equal items.

A script under compaction is held as the runs before the one that is moving, nearest first, the
items of that run, and the runs behind it. Every move keeps the two sequences that the script
relates.
-/

namespace TreeDelta.LineDiff

variable {α : Type} [DecidableEq α]

/-- A moving run between the runs before it, nearest first, and the runs behind it. -/
structure Moving (α : Type) where
  before : List (Run α)
  items : List α
  behind : List (Run α)

/-- Add equal items at the beginning of a list of runs. -/
def growFirst (items : List α) (runs : List (Run α)) : List (Run α) :=
  if items.isEmpty then runs
  else
    match runs with
    | .equal present :: rest => .equal (items ++ present) :: rest
    | _ => .equal items :: runs

/-- Add equal items at the near end of a list of runs that stand before. -/
def growLast (items : List α) (runs : List (Run α)) : List (Run α) :=
  if items.isEmpty then runs
  else
    match runs with
    | .equal present :: rest => .equal (present ++ items) :: rest
    | _ => .equal items :: runs

/-- Slide inserted items up over equal ones, which are given last first. The result is what is left
of the equal items, last first, the inserted items, and the items that are now kept behind them. -/
def slideUp : List α → List α → List α → List α × List α × List α
  | [], inserted, passed => ([], inserted, passed)
  | item :: rest, inserted, passed =>
    if inserted.getLast? = some item then slideUp rest (item :: inserted.dropLast) (item :: passed)
    else (item :: rest, inserted, passed)

/-- Slide inserted items down over equal ones. The result is what is left of the equal items, the
inserted items, and the items that are now kept before them, last first. -/
def slideDown : List α → List α → List α → List α × List α × List α
  | [], inserted, passed => ([], inserted, passed)
  | item :: rest, inserted, passed =>
    if inserted.head? = some item then slideDown rest (inserted.tail ++ [item]) (item :: passed)
    else (item :: rest, inserted, passed)

/-- Move an inserted run up. -/
def insertUp : List (Run α) → List α → List (Run α) → Moving α
  | [], items, behind => ⟨[], items, behind⟩
  | .equal present :: before, items, behind =>
    match slideUp present.reverse items [] with
    | ([], slid, passed) => insertUp before slid (growFirst passed behind)
    | (left, slid, passed) => ⟨.equal left.reverse :: before, slid, growFirst passed behind⟩
  | .delete deleted :: before, items, behind => insertUp before items (.delete deleted :: behind)
  | .insert inserted :: before, items, behind => insertUp before (inserted ++ items) behind

/-- Move an inserted run down. -/
def insertDown (before : List (Run α)) (items : List α) : List (Run α) → Moving α
  | [] => ⟨before, items, []⟩
  | .equal present :: behind =>
    match slideDown present items [] with
    | ([], slid, passed) => insertDown (growLast passed.reverse before) slid behind
    | (left, slid, passed) => ⟨growLast passed.reverse before, slid, .equal left :: behind⟩
  | .delete deleted :: behind => insertDown (.delete deleted :: before) items behind
  | .insert inserted :: behind => insertDown before (items ++ inserted) behind

/-- Move a deleted run up. -/
def deleteUp : List (Run α) → List α → List (Run α) → Moving α
  | [], items, behind => ⟨[], items, behind⟩
  | .equal [] :: before, items, behind => deleteUp before items behind
  | .equal present :: before, items, behind => ⟨.equal present :: before, items, behind⟩
  | .delete deleted :: before, items, behind => deleteUp before (deleted ++ items) behind
  | .insert inserted :: before, items, behind => deleteUp before items (.insert inserted :: behind)

/-- Move a deleted run down. -/
def deleteDown (before : List (Run α)) (items : List α) : List (Run α) → Moving α
  | [] => ⟨before, items, []⟩
  | .equal [] :: behind => deleteDown before items behind
  | .equal present :: behind => ⟨before, items, .equal present :: behind⟩
  | .delete deleted :: behind => deleteDown before (items ++ deleted) behind
  | .insert inserted :: behind => deleteDown (.insert inserted :: before) items behind

/-- Settle the deleted runs from left to right, at most `rounds` of them. -/
def settleDeletes : Nat → List (Run α) → List (Run α) → List (Run α)
  | 0, before, behind => before.reverse ++ behind
  | _ + 1, before, [] => before.reverse
  | rounds + 1, before, .delete items :: behind =>
    let up := deleteUp before items behind
    let settled := deleteDown up.before up.items up.behind
    settleDeletes rounds (.delete settled.items :: settled.before) settled.behind
  | rounds + 1, before, run :: behind => settleDeletes rounds (run :: before) behind

/-- Settle the inserted runs from left to right, at most `rounds` of them. -/
def settleInserts : Nat → List (Run α) → List (Run α) → List (Run α)
  | 0, before, behind => before.reverse ++ behind
  | _ + 1, before, [] => before.reverse
  | rounds + 1, before, .insert items :: behind =>
    let up := insertUp before items behind
    let settled := insertDown up.before up.items up.behind
    settleInserts rounds (.insert settled.items :: settled.before) settled.behind
  | rounds + 1, before, run :: behind => settleInserts rounds (run :: before) behind

/-- Compact a script: its deleted runs and then its inserted ones. A run that has merged with others
may be met once more, but each meeting leaves fewer inserted runs or fewer runs behind, so the
square of their number bounds the rounds. -/
def compact (script : List (Run α)) : List (Run α) :=
  let rounds := (script.length + 2) * (script.length + 2)
  settleInserts rounds [] (settleDeletes rounds [] script)

end TreeDelta.LineDiff
