import TreeDelta.Node

/-!
# Costs of alignments

An alignment of two trees renames nodes, deletes nodes and inserts nodes, and each of these has a
cost. Costs can be taken from any scale that has a zero, a unit, addition, a smaller of two, and a
test that tells whether two costs are to be taken as equal. On floating-point numbers that test
leaves room for the rounding of sums. Exact fractions use the same room, so what it admits can be
studied without rounding.
-/

namespace TreeDelta

/-- What the alignment needs to know of costs. -/
class CostScale (C : Type) where
  zero : C
  unit : C
  add : C → C → C
  /-- The smaller of two costs; the second only if it is really smaller. -/
  lesser : C → C → C
  /-- Whether two costs are taken as equal. -/
  near : C → C → Bool

/-- Floating-point costs within a thousand-millionth of each other are taken as equal. -/
instance : CostScale Float where
  zero := 0
  unit := 1
  add first second := first + second
  lesser first second := if second < first then second else first
  near first second := Float.abs (first - second) < 1e-9

/-- The sum below which two exact fractions are taken as equal: a thousand-millionth. -/
def CostScale.tolerance : Rat := 1 / 1000000000

/-- Exact fractions within the tolerance of each other are taken as equal. -/
instance : CostScale Rat where
  zero := 0
  unit := 1
  add first second := first + second
  lesser first second := if second < first then second else first
  near first second :=
    first - second < CostScale.tolerance && second - first < CostScale.tolerance

/-- The costs of the three operations on nodes. -/
structure CostModel (C : Type) where
  /-- The cost of turning one node into another in its place. -/
  rename : Node → Node → C
  /-- The cost of inserting a node. -/
  insert : Node → C
  /-- The cost of deleting a node. -/
  delete : Node → C

/-- The figures of a cost model that looks at kinds and at whether nodes agree. -/
structure Weights (C : Type) where
  /-- The cost of renaming to another kind. -/
  changeKind : C
  /-- The cost of renaming within a kind. -/
  changeValue : C
  /-- The cost of inserting a node whose kind is not listed. -/
  insert : C
  /-- The cost of deleting a node whose kind is not listed. -/
  delete : C
  /-- The costs of inserting nodes of some kinds. -/
  insertByKind : List (String × C)
  /-- The costs of deleting nodes of some kinds. -/
  deleteByKind : List (String × C)
  /-- Whether nodes must carry the same id to agree. -/
  ids : Bool

namespace CostModel

variable {C : Type} [CostScale C]

/-- Nodes that agree are renamed for nothing; everything else costs one unit. -/
def unit : CostModel C where
  rename first second := if first.agrees false second then CostScale.zero else CostScale.unit
  insert _ := CostScale.unit
  delete _ := CostScale.unit

/-- The cost model with the given figures. Nodes that agree are renamed for nothing. -/
def weighted (weights : Weights C) : CostModel C where
  rename first second :=
    if first.agrees weights.ids second then CostScale.zero
    else if first.kind = second.kind then weights.changeValue
    else weights.changeKind
  insert node := (weights.insertByKind.lookup node.kind).getD weights.insert
  delete node := (weights.deleteByKind.lookup node.kind).getD weights.delete

end CostModel

end TreeDelta
