import TreeDelta.Proofs.Alignment.CheckedTables
import TreeDelta.Proofs.Alignment.ForestTable

/-!
# The rule with checked indices

The rule for the distance of two forests, with every index checked: there is no result if a node, a
first number or an entry of a table is asked for that is not there, or if a greater number would be
taken from a smaller one. For two complete numberings and tables of the right shapes there always is
a result, and it is that of the rule.
-/

namespace TreeDelta

/-- The difference of two numbers, if the second is not the greater one. -/
def difference? (greater smaller : Nat) : Option Nat :=
  if smaller ≤ greater then some (greater - smaller) else none

/-- A number that is not the greater one can be taken away. -/
theorem difference_found {greater smaller : Nat} (notGreater : smaller ≤ greater) :
    difference? greater smaller = some (greater - smaller) :=
  if_pos notGreater

namespace Numbering

variable {numbering : Numbering} {index : Nat}

/-- Every number has a node. -/
theorem node_found (inside : index < numbering.size) :
    numbering.nodes[index]? = some (numbering.node index) := by
  have stored : index < numbering.nodes.size := inside
  simp [node, stored]

/-- Every node has a first number, if as many are listed as there are nodes. -/
theorem first_found (full : numbering.firsts.size = numbering.size)
    (inside : index < numbering.size) :
    numbering.firsts[index]? = some (numbering.first index) := by
  have stored : index < numbering.firsts.size := full ▸ inside
  simp [first, stored]

end Numbering

namespace Alignment

variable {C : Type}

namespace Problem

/-- The cost of deleting a node of the left tree, if there is that node. -/
def delete? (problem : Problem C) (i : Nat) : Option C :=
  problem.left.nodes[i]?.map problem.cost.delete

/-- The cost of inserting a node of the right tree, if there is that node. -/
def insert? (problem : Problem C) (j : Nat) : Option C :=
  problem.right.nodes[j]?.map problem.cost.insert

/-- The cost of renaming a node of the left tree into one of the right tree, if there are both. -/
def rename? (problem : Problem C) (i j : Nat) : Option C := do
  let first ← problem.left.nodes[i]?
  let second ← problem.right.nodes[j]?
  return problem.cost.rename first second

/-- Whether the nodes `di` and `dj` begin at `li` and `lj`, if there are both. -/
def begins? (problem : Problem C) (li lj di dj : Nat) : Option Bool := do
  let leftFirst ← problem.left.firsts[di]?
  let rightFirst ← problem.right.firsts[dj]?
  return leftFirst == li && rightFirst == lj

/-- Both numberings are nested and list the first number of every node. -/
structure Complete (problem : Problem C) : Prop where
  nested : problem.Nested
  leftFirsts : problem.left.firsts.size = problem.left.size
  rightFirsts : problem.right.firsts.size = problem.right.size

variable [CostScale C]

/-- The cost of matching the last nodes of two forests of `x + 1` and `y + 1` nodes that begin at
`li` and `lj`, read with checked indices. -/
def matching? (problem : Problem C) (known forests : Table C) (li lj x y : Nat) : Option C := do
  let di := li + x
  let dj := lj + y
  if ← problem.begins? li lj di dj then
    return CostScale.add (← forests.read? x y) (← problem.rename? di dj)
  else
    let row ← difference? (← problem.left.firsts[di]?) li
    let column ← difference? (← problem.right.firsts[dj]?) lj
    return CostScale.add (← forests.read? row column) (← known.read? di dj)

/-- The distance of two forests that begin at `li` and `lj`, computed from the cells of smaller
forests with checked indices. -/
def rule? (problem : Problem C) (known forests : Table C) (li lj : Nat) : Nat → Nat → Option C
  | 0, 0 => some CostScale.zero
  | x + 1, 0 => do return CostScale.add (← forests.read? x 0) (← problem.delete? (li + x))
  | 0, y + 1 => do return CostScale.add (← forests.read? 0 y) (← problem.insert? (lj + y))
  | x + 1, y + 1 => do
    let deleted := CostScale.add (← forests.read? x (y + 1)) (← problem.delete? (li + x))
    let inserted := CostScale.add (← forests.read? (x + 1) y) (← problem.insert? (lj + y))
    let matched ← problem.matching? known forests li lj x y
    return CostScale.lesser (CostScale.lesser deleted inserted) matched

end Problem

section Checked

variable {problem : Problem C} {i j : Nat}

/-- The numberings of two trees are complete. -/
theorem complete_of_trees (left right : SyntaxTree) (cost : CostModel C) :
    (Problem.ofTrees left right cost).Complete where
  nested := nested_of_trees left right cost
  leftFirsts := by simp [Problem.ofTrees, Numbering.ofTree, Numbering.size]
  rightFirsts := by simp [Problem.ofTrees, Numbering.ofTree, Numbering.size]

/-- The cost of deleting a node of the left tree is found. -/
theorem delete_found (inside : i < problem.left.size) :
    problem.delete? i = some (problem.delete i) := by
  rw [Problem.delete?, Numbering.node_found inside]
  rfl

/-- The cost of inserting a node of the right tree is found. -/
theorem insert_found (inside : j < problem.right.size) :
    problem.insert? j = some (problem.insert j) := by
  rw [Problem.insert?, Numbering.node_found inside]
  rfl

/-- The cost of renaming a node of the left tree into one of the right tree is found. -/
theorem rename_found (leftInside : i < problem.left.size) (rightInside : j < problem.right.size) :
    problem.rename? i j = some (problem.rename i j) := by
  rw [Problem.rename?, Numbering.node_found leftInside, Numbering.node_found rightInside]
  rfl

/-- For two nodes it is found whether they begin where two other nodes begin. -/
theorem begins_found (complete : problem.Complete) {di dj : Nat}
    (leftInside : di < problem.left.size) (rightInside : dj < problem.right.size) :
    problem.begins? (problem.left.first i) (problem.right.first j) di dj =
      some (problem.wholeTrees i j di dj) := by
  rw [Problem.begins?, Numbering.first_found complete.leftFirsts leftInside,
    Numbering.first_found complete.rightFirsts rightInside]
  rfl

variable [CostScale C]

/-- The tables have the shapes that the subtrees of `i` and `j` ask for. -/
structure Fitting (problem : Problem C) (i j : Nat) (known forests : Table C) : Prop where
  forests : forests.Shaped (i - problem.left.first i + 2) (j - problem.right.first j + 2)
  known : known.Shaped problem.left.size problem.right.size

variable {known forests : Table C} {x y : Nat}

/-- Everything that the cost of matching asks for is there.

If both forests are whole trees, the entry in front of both tops is asked for, else the one in front
of both last subtrees and their distance. All of these lie inside the tables. -/
theorem matching_found (complete : problem.Complete) (leftInside : i < problem.left.size)
    (rightInside : j < problem.right.size) (fitting : Fitting problem i j known forests)
    (inRows : problem.left.first i + x ≤ i)
    (inColumns : problem.right.first j + y ≤ j) :
    problem.matching? known forests (problem.left.first i) (problem.right.first j) x y =
      some (problem.matching (Problem.look known) i j (Problem.look forests) (x + 1) (y + 1)) := by
  have lastLeft : problem.left.first i + x < problem.left.size := inRows.trans_lt leftInside
  have lastRight : problem.right.first j + y < problem.right.size := inColumns.trans_lt rightInside
  have leftAfter := complete.nested.left.first_mono i leftInside (problem.left.first i + x)
    (Nat.le_add_right _ _) inRows
  have rightAfter := complete.nested.right.first_mono j rightInside (problem.right.first j + y)
    (Nat.le_add_right _ _) inColumns
  have leftFirst := complete.nested.left.first_le _ lastLeft
  have rightFirst := complete.nested.right.first_le _ lastRight
  have found {row column : Nat} (inFront : row ≤ x) (alsoInFront : column ≤ y) :
      forests.read? row column = some (Problem.look forests row column) :=
    fitting.forests.entry_read CostScale.zero (by omega) (by omega)
  have asked : problem.begins? (problem.left.first i) (problem.right.first j)
      (problem.left.first i + x) (problem.right.first j + y) = some (problem.wholeTrees i j
        (problem.left.first i + x) (problem.right.first j + y)) :=
    begins_found complete lastLeft lastRight
  cases whole : problem.wholeTrees i j (problem.left.first i + x)
      (problem.right.first j + y) with
  | true =>
    simp [Problem.matching?, Problem.matching, asked, whole, found le_rfl le_rfl,
      rename_found lastLeft lastRight, ← Nat.add_assoc]
  | false =>
    have front := found (Nat.sub_le_iff_le_add'.mpr leftFirst)
      (Nat.sub_le_iff_le_add'.mpr rightFirst)
    have tree : known.read? (problem.left.first i + x) (problem.right.first j + y) =
        some (Problem.look known (problem.left.first i + x) (problem.right.first j + y)) :=
      fitting.known.entry_read CostScale.zero lastLeft lastRight
    simp [Problem.matching?, Problem.matching, asked, whole,
      Numbering.first_found complete.leftFirsts lastLeft,
      Numbering.first_found complete.rightFirsts lastRight, difference_found leftAfter,
      difference_found rightAfter, front, tree, ← Nat.add_assoc]

/-- Everything that the rule for two forests asks for is there. -/
theorem rule_found (complete : problem.Complete) (leftInside : i < problem.left.size)
    (rightInside : j < problem.right.size) (fitting : Fitting problem i j known forests)
    (inRows : problem.left.first i + x ≤ i + 1) (inColumns : problem.right.first j + y ≤ j + 1) :
    problem.rule? known forests (problem.left.first i) (problem.right.first j) x y =
      some (problem.forestRule (Problem.look known) i j (Problem.look forests) x y) := by
  have found {row column : Nat} (inFront : row ≤ x) (alsoInFront : column ≤ y) :
      forests.read? row column = some (Problem.look forests row column) :=
    fitting.forests.entry_read CostScale.zero (by omega) (by omega)
  match x, y with
  | 0, 0 => simp [Problem.rule?, Problem.forestRule]
  | x + 1, 0 =>
    have last : problem.left.first i + x < problem.left.size := by omega
    simp [Problem.rule?, Problem.forestRule, found (Nat.le_succ x) le_rfl, delete_found last,
      ← Nat.add_assoc]
  | 0, y + 1 =>
    have last : problem.right.first j + y < problem.right.size := by omega
    simp [Problem.rule?, Problem.forestRule, found le_rfl (Nat.le_succ y), insert_found last,
      ← Nat.add_assoc]
  | x + 1, y + 1 =>
    have lastLeft : problem.left.first i + x < problem.left.size := by omega
    have lastRight : problem.right.first j + y < problem.right.size := by omega
    simp [Problem.rule?, Problem.forestRule, found (Nat.le_succ x) le_rfl,
      found le_rfl (Nat.le_succ y), delete_found lastLeft, insert_found lastRight,
      matching_found complete leftInside rightInside fitting (Nat.le_of_lt_succ inRows)
        (Nat.le_of_lt_succ inColumns), ← Nat.add_assoc]

end Checked

end Alignment

end TreeDelta
