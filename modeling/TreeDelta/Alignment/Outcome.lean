import TreeDelta.Alignment.Distance

/-!
# What becomes of the nodes

The tables of distances are walked back from the tops of both trees to find what a cheapest
alignment does to each node: nodes of the left tree are kept, possibly renamed, or deleted, and the
nodes of the right tree that keep nothing are inserted. At each pair of forests the walk asks which
of the possibilities explains the distance: first whether the last nodes are matched, then whether
the last node of the left forest is deleted, and otherwise the last node of the right forest is
inserted. Matching two whole trees keeps their tops. Matching two subtrees leaves them to a walk of
their own and goes on with what stands in front of them.

Costs are compared by the scale's own test, so on a scale with rounding a possibility explains a
distance that it misses by less than the tolerance. A walk always finds an explanation, because each
distance is one of the sums that it is compared with.
-/

namespace TreeDelta.Alignment

/-- What becomes of the nodes of two trees: the pairs of nodes that are kept, the nodes of the left
tree that are deleted, and the nodes of the right tree that are inserted. -/
structure Outcome where
  kept : List (Nat × Nat)
  deleted : List Nat
  inserted : List Nat
  deriving DecidableEq, Repr, Inhabited

namespace Outcome

/-- The outcome for no nodes. -/
def empty : Outcome := ⟨[], [], []⟩

/-- The outcome for the nodes of two outcomes. -/
def append (first second : Outcome) : Outcome :=
  ⟨first.kept ++ second.kept, first.deleted ++ second.deleted, first.inserted ++ second.inserted⟩

end Outcome

/-- What a walk through one table has found: an outcome for the nodes it has passed, and the pairs
of subtrees that it has left to walks of their own. -/
structure Walk where
  outcome : Outcome
  pending : List (Nat × Nat)
  deriving DecidableEq, Repr, Inhabited

namespace Walk

/-- The walk that has passed no node. -/
def start : Walk := ⟨Outcome.empty, []⟩

/-- A walk that has also kept a pair of nodes. -/
def keep (walk : Walk) (pair : Nat × Nat) : Walk :=
  { walk with outcome.kept := pair :: walk.outcome.kept }

/-- A walk that has also deleted a node. -/
def delete (walk : Walk) (i : Nat) : Walk :=
  { walk with outcome.deleted := i :: walk.outcome.deleted }

/-- A walk that has also inserted a node. -/
def insert (walk : Walk) (j : Nat) : Walk :=
  { walk with outcome.inserted := j :: walk.outcome.inserted }

/-- A walk that has also left a pair of subtrees to a walk of its own. -/
def postpone (walk : Walk) (pair : Nat × Nat) : Walk :=
  { walk with pending := pair :: walk.pending }

end Walk

namespace Problem

variable {C : Type} [CostScale C]

/-- Walk back from the forests of `x` and `y` nodes that begin where `i` and `j` begin. Each step
makes one of the forests smaller, so `x + y` steps suffice; there is no result if a step would have
to take a node from an empty forest. -/
def walkBack (problem : Problem C) (known forests : Table C) (i j : Nat) :
    Nat → Nat → Nat → Option Walk
  | _, 0, 0 => some Walk.start
  | 0, _, _ => none
  | steps + 1, x, y =>
    let li := problem.left.first i
    let lj := problem.right.first j
    let di := li + x - 1
    let dj := lj + y - 1
    let here := look forests x y
    if x ≠ 0 ∧ y ≠ 0 ∧
        CostScale.near here (problem.matching (look known) i j (look forests) x y) then
      if problem.wholeTrees i j di dj then
        (problem.walkBack known forests i j steps (x - 1) (y - 1)).map fun walk =>
          walk.keep (di, dj)
      else
        (problem.walkBack known forests i j steps (problem.left.first di - li)
          (problem.right.first dj - lj)).map fun walk => walk.postpone (di, dj)
    else if x ≠ 0 ∧
        CostScale.near here (CostScale.add (look forests (x - 1) y) (problem.delete di)) then
      (problem.walkBack known forests i j steps (x - 1) y).map fun walk => walk.delete di
    else if y ≠ 0 then
      (problem.walkBack known forests i j steps x (y - 1)).map fun walk => walk.insert dj
    else none

/-- Walk back from the subtrees of `i` and `j`. -/
def walkFrom (problem : Problem C) (known : Table C) (i j : Nat) : Option Walk :=
  let x := i - problem.left.first i + 1
  let y := j - problem.right.first j + 1
  problem.walkBack known (problem.forestTable known i j) i j (x + y) x y

/-- The outcome for the subtrees of a pair of nodes. Every pair that a walk leaves to a walk of its
own is a pair of smaller subtrees, so as many rounds suffice as both trees have nodes. -/
def outcomeBetween (problem : Problem C) (known : Table C) : Nat → Nat × Nat → Option Outcome
  | 0, _ => none
  | rounds + 1, (i, j) => do
    let walk ← problem.walkFrom known i j
    let further ← walk.pending.mapM (problem.outcomeBetween known rounds)
    return further.foldl Outcome.append walk.outcome

/-- The outcome of a cheapest alignment. -/
def outcome? (problem : Problem C) : Option Outcome :=
  problem.outcomeBetween problem.distances (problem.left.size + problem.right.size)
    (problem.left.size - 1, problem.right.size - 1)

end Problem

/-- The order of pairs by the left node and then by the right one. -/
def pairNotAfter (first second : Nat × Nat) : Bool :=
  first.1 < second.1 || (first.1 == second.1 && first.2 ≤ second.2)

/-- The pairs of post-order positions that a cheapest alignment of two trees keeps, in ascending
order. -/
def correspondence {C : Type} [CostScale C] (cost : CostModel C) (left right : SyntaxTree) :
    List (Nat × Nat) :=
  match (Problem.ofTrees left right cost).outcome? with
  | some outcome => outcome.kept.mergeSort pairNotAfter
  | none => []

end TreeDelta.Alignment
