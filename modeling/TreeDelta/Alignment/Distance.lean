import TreeDelta.Alignment.Cost
import TreeDelta.Alignment.Numbering
import TreeDelta.Alignment.Table

/-!
# Distances between trees

The distance of two trees is the least total cost of renaming, deleting and inserting nodes that
turns one into the other and keeps the order of nodes and who stands above whom.

It is found from the distances of smaller forests. A forest here is a run of nodes in post-order
that begins where some subtree begins. The last node of the left forest is deleted, or the last node
of the right one is inserted, or the two are matched. If both forests are whole trees, matching
renames one top into the other; otherwise the two subtrees of the last nodes are matched as wholes,
at the distance that is already known for them, and what stands in front of them is matched on its
own.

Pairs of key roots are taken in ascending order. Their forests cover every pair of subtrees, and a
pair of subtrees is covered before a forest needs its distance.
-/

namespace TreeDelta.Alignment

/-- Two numbered trees and the costs of turning the left one into the right one. -/
structure Problem (C : Type) where
  left : Numbering
  right : Numbering
  cost : CostModel C

namespace Problem

variable {C : Type} [CostScale C]

/-- The problem of two trees. -/
def ofTrees (left right : SyntaxTree) (cost : CostModel C) : Problem C :=
  ⟨Numbering.ofTree left, Numbering.ofTree right, cost⟩

/-- The cost of deleting a node of the left tree. -/
def delete (problem : Problem C) (i : Nat) : C := problem.cost.delete (problem.left.node i)

/-- The cost of inserting a node of the right tree. -/
def insert (problem : Problem C) (j : Nat) : C := problem.cost.insert (problem.right.node j)

/-- The cost of renaming a node of the left tree into one of the right tree. -/
def rename (problem : Problem C) (i j : Nat) : C :=
  problem.cost.rename (problem.left.node i) (problem.right.node j)

/-- Whether the nodes `di` and `dj` begin where `i` and `j` begin, so that the forests that end
with them are whole trees. -/
def wholeTrees (problem : Problem C) (i j di dj : Nat) : Bool :=
  problem.left.first di == problem.left.first i && problem.right.first dj == problem.right.first j

/-- An entry of a table of distances. -/
def look (table : Table C) (row column : Nat) : C := table.entry CostScale.zero row column

/-- The cost of matching the last nodes of two forests of `x` and `y` nodes that begin where `i` and
`j` begin, given the distances of smaller forests and of subtrees. -/
def matching (problem : Problem C) (known : Nat → Nat → C) (i j : Nat)
    (forest : Nat → Nat → C) (x y : Nat) : C :=
  let li := problem.left.first i
  let lj := problem.right.first j
  let di := li + x - 1
  let dj := lj + y - 1
  if problem.wholeTrees i j di dj then
    CostScale.add (forest (x - 1) (y - 1)) (problem.rename di dj)
  else
    CostScale.add (forest (problem.left.first di - li) (problem.right.first dj - lj))
      (known di dj)

/-- The distance of the forests of `x` and `y` nodes that begin where `i` and `j` begin. -/
def forestRule (problem : Problem C) (known : Nat → Nat → C) (i j : Nat)
    (forest : Nat → Nat → C) (x y : Nat) : C :=
  let di := problem.left.first i + x - 1
  let dj := problem.right.first j + y - 1
  if x = 0 then
    if y = 0 then CostScale.zero else CostScale.add (forest 0 (y - 1)) (problem.insert dj)
  else if y = 0 then CostScale.add (forest (x - 1) 0) (problem.delete di)
  else
    CostScale.lesser
      (CostScale.lesser (CostScale.add (forest (x - 1) y) (problem.delete di))
        (CostScale.add (forest x (y - 1)) (problem.insert dj)))
      (problem.matching known i j forest x y)

/-- The distances of all forests that begin where `i` and `j` begin and end with them or before. -/
def forestTable (problem : Problem C) (known : Table C) (i j : Nat) : Table C :=
  Table.fill CostScale.zero (i - problem.left.first i + 2) (j - problem.right.first j + 2)
    (problem.forestRule (look known) i j)

/-- The pairs of subtrees that begin where `i` and `j` begin and end with them or before. -/
def coveredPairs (problem : Problem C) (i j : Nat) : List (Nat × Nat) :=
  let span (numbering : Numbering) (last : Nat) :=
    ((List.range (last + 1)).drop (numbering.first last)).filter fun index =>
      numbering.first index == numbering.first last
  (span problem.left i).flatMap fun di => (span problem.right j).map fun dj => (di, dj)

/-- Add the distances of the pairs of subtrees that a pair of key roots covers. -/
def record (problem : Problem C) (known : Table C) (roots : Nat × Nat) : Table C :=
  let (i, j) := roots
  let forests := problem.forestTable known i j
  (problem.coveredPairs i j).foldl (fun table (di, dj) =>
    table.set di dj
      (look forests (di - problem.left.first i + 1) (dj - problem.right.first j + 1))) known

/-- The pairs of key roots in the order in which they are taken. -/
def keyRootPairs (problem : Problem C) : List (Nat × Nat) :=
  problem.left.keyRoots.flatMap fun i => problem.right.keyRoots.map fun j => (i, j)

/-- The distances of all pairs of subtrees. -/
def distances (problem : Problem C) : Table C :=
  problem.keyRootPairs.foldl problem.record
    (Table.constant problem.left.size problem.right.size CostScale.zero)

end Problem

/-- The distance of two trees. -/
def distance {C : Type} [CostScale C] (left right : SyntaxTree) (cost : CostModel C) : C :=
  let problem := Problem.ofTrees left right cost
  Problem.look problem.distances (problem.left.size - 1) (problem.right.size - 1)

end TreeDelta.Alignment
