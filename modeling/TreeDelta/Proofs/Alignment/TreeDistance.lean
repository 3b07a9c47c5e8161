import Mathlib.Data.List.Permutation
import TreeDelta.Proofs.Alignment.DistanceTable

/-!
# The distance of two trees

The distance is stated here in terms of the trees alone. A mapping between two subtrees pairs some
nodes of the one with nodes of the other; it is one to one, and it keeps the order of nodes and who
stands above whom. Nodes are named by their post-order numbers, and who stands above whom is read
off the places in the tree. The table of distances holds the least cost of such a mapping for every
pair of subtrees, whatever the costs of the operations are.
-/

namespace TreeDelta

instance (tree : SyntaxTree) (upper lower : Nat) : Decidable (tree.Above upper lower) :=
  inferInstanceAs (Decidable (∃ up ∈ (Place.top tree).postorder[upper]?,
    ∃ low ∈ (Place.top tree).postorder[lower]?, up.IsAbove low))

instance (tree : SyntaxTree) (top : Nat) : DecidablePred (tree.InSubtree top) :=
  fun index => inferInstanceAs (Decidable (index = top ∨ tree.Above top index))

/-- The numbers of the nodes of a subtree. -/
def Tree.subtree (tree : SyntaxTree) (top : Nat) : Finset Nat :=
  (Finset.range tree.size).filter (tree.InSubtree top)

namespace Alignment

variable {C : Type}

/-- The pairs map nodes of the subtree of `i` to nodes of the subtree of `j`, one to one, and keep
the post-order of nodes and who stands above whom. -/
structure OrderedMapping (left right : SyntaxTree) (i j : Nat) (pairs : Finset (Nat × Nat)) :
    Prop where
  leftInside : ∀ pair ∈ pairs, left.InSubtree i pair.1
  rightInside : ∀ pair ∈ pairs, right.InSubtree j pair.2
  oneToOne : ∀ pair ∈ pairs, ∀ other ∈ pairs, pair.1 = other.1 ↔ pair.2 = other.2
  order : ∀ pair ∈ pairs, ∀ other ∈ pairs, pair.1 < other.1 ↔ pair.2 < other.2
  ancestors : ∀ pair ∈ pairs, ∀ other ∈ pairs,
    left.Above pair.1 other.1 ↔ right.Above pair.2 other.2

/-- The cost of a mapping between two subtrees: paired nodes are renamed, the other nodes on the
left are deleted, and the other nodes on the right are inserted. -/
def mappingCost [AddCommMonoid C] (cost : CostModel C) (left right : SyntaxTree) (i j : Nat)
    (pairs : Finset (Nat × Nat)) : C :=
  ∑ pair ∈ pairs, cost.rename (left.nodeAt pair.1) (right.nodeAt pair.2) +
    ∑ index ∈ left.subtree i \ pairs.image Prod.fst, cost.delete (left.nodeAt index) +
    ∑ index ∈ right.subtree j \ pairs.image Prod.snd, cost.insert (right.nodeAt index)

/-- The nodes of a subtree are a run of numbers. -/
theorem in_subtree_iff (tree : SyntaxTree) (top index : Nat) (inside : top < tree.size) :
    tree.InSubtree top index ↔ (Numbering.ofTree tree).first top ≤ index ∧ index ≤ top := by
  have begins := Numbering.first_le_of_tree tree top inside
  rw [Tree.InSubtree, Numbering.above_iff_over tree top index inside, Numbering.Over]
  omega

/-- The numbers of a subtree are those of its run. -/
theorem subtree_eq (tree : SyntaxTree) (top : Nat) (inside : top < tree.size) :
    tree.subtree top = Finset.Ico ((Numbering.ofTree tree).first top) (top + 1) := by
  ext index
  rw [Tree.subtree, Finset.mem_filter, Finset.mem_range, Finset.mem_Ico,
    in_subtree_iff tree top index inside]
  omega

/-- The numbers of a whole tree are all numbers below its size. -/
theorem subtree_of_last (tree : SyntaxTree) :
    tree.subtree (tree.size - 1) = Finset.range tree.size := by
  have last := tree.last_inside
  rw [subtree_eq tree _ last, Numbering.first_of_last, Nat.sub_add_cancel (by omega),
    Finset.range_eq_Ico]

section Mapping

variable (left right : SyntaxTree) (cost : CostModel C)

/-- Mappings between subtrees are the mappings between the runs of their numbers.

A subtree is the run of numbers from its first one on, and a node is above another exactly if the
numbering says so. With both translated, the conditions are the same one by one. -/
theorem ordered_mapping_iff (i j : Nat) (leftInside : i < left.size) (rightInside : j < right.size)
    (pairs : Finset (Nat × Nat)) :
    OrderedMapping left right i j pairs ↔
      Fits (Problem.ofTrees left right cost) (left.subtree i) (right.subtree j) pairs := by
  have leftNumber (index : Nat) :
      index ∈ left.subtree i ↔ index < left.size ∧ left.InSubtree i index := by
    simp [Tree.subtree]
  have rightNumber (index : Nat) :
      index ∈ right.subtree j ↔ index < right.size ∧ right.InSubtree j index := by
    simp [Tree.subtree]
  -- The numbers of paired nodes are in range either way, so both sides mean the same by ancestors.
  have ancestors (leftIndex rightIndex leftLower rightLower : Nat)
      (leftSize : leftIndex < left.size) (rightSize : rightIndex < right.size) :
      (left.Above leftIndex leftLower ↔ right.Above rightIndex rightLower) ↔
        ((Numbering.ofTree left).Over leftIndex leftLower ↔
          (Numbering.ofTree right).Over rightIndex rightLower) := by
    rw [Numbering.above_iff_over left _ _ leftSize, Numbering.above_iff_over right _ _ rightSize]
  constructor
  · intro mapping
    have leftMem (pair : Nat × Nat) (member : pair ∈ pairs) : pair.1 ∈ left.subtree i := by
      have within := mapping.leftInside pair member
      have bounds := (in_subtree_iff left i pair.1 leftInside).mp within
      exact (leftNumber pair.1).mpr ⟨by omega, within⟩
    have rightMem (pair : Nat × Nat) (member : pair ∈ pairs) : pair.2 ∈ right.subtree j := by
      have within := mapping.rightInside pair member
      have bounds := (in_subtree_iff right j pair.2 rightInside).mp within
      exact (rightNumber pair.2).mpr ⟨by omega, within⟩
    refine ⟨leftMem, rightMem, mapping.order, ?_⟩
    intro pair member other otherMember
    exact (ancestors pair.1 pair.2 other.1 other.2 ((leftNumber _).mp (leftMem pair member)).1
      ((rightNumber _).mp (rightMem pair member)).1).mp
        (mapping.ancestors pair member other otherMember)
  · intro fits
    have leftMem (pair : Nat × Nat) (member : pair ∈ pairs) :=
      (leftNumber pair.1).mp (fits.left_mem pair member)
    have rightMem (pair : Nat × Nat) (member : pair ∈ pairs) :=
      (rightNumber pair.2).mp (fits.right_mem pair member)
    refine ⟨fun pair member => (leftMem pair member).2, fun pair member => (rightMem pair member).2,
      ?_, fits.order, ?_⟩
    · intro pair member other otherMember
      exact fits.same_iff pair other member otherMember
    · intro pair member other otherMember
      exact (ancestors pair.1 pair.2 other.1 other.2 (leftMem pair member).1
        (rightMem pair member).1).mpr (fits.ancestors pair member other otherMember)

/-- Mappings between subtrees cost the same by the trees and by their numberings. -/
theorem mapping_cost_eq [AddCommGroup C] (i j : Nat) (pairs : Finset (Nat × Nat)) :
    mappingCost cost left right i j pairs =
      total (Problem.ofTrees left right cost) (left.subtree i) (right.subtree j) pairs := by
  simp [mappingCost, total, Problem.ofTrees, Problem.rename, Problem.delete, Problem.insert,
    Numbering.node_of_tree]

/-- The distance of two trees is read at their last numbers. -/
theorem distance_of_trees [CostScale C] :
    distance left right cost = Problem.look (Problem.ofTrees left right cost).distances
      (left.size - 1) (right.size - 1) := by
  rw [← Numbering.size_of_tree left, ← Numbering.size_of_tree right]
  rfl

variable [AddCommGroup C] [LinearOrder C] [IsOrderedAddMonoid C] [CostScale C] [CostScale.Exact C]

/-- On every exact scale, the table of distances holds the least cost of a mapping for every pair
of subtrees. -/
theorem subtree_distance_least (i j : Nat) (leftInside : i < left.size)
    (rightInside : j < right.size) :
    IsLeast {total | ∃ pairs, OrderedMapping left right i j pairs ∧
        mappingCost cost left right i j pairs = total}
      (Problem.look (Problem.ofTrees left right cost).distances i j) := by
  have known : Known (Problem.ofTrees left right cost) (Problem.ofTrees left right cost).distances
      i j := by
    apply distances_known (nested_of_trees left right cost) i j
    · exact leftInside.trans_eq (Numbering.size_of_tree left).symm
    · exact rightInside.trans_eq (Numbering.size_of_tree right).symm
  have least : Least (Problem.ofTrees left right cost) (left.subtree i) (right.subtree j)
      (Problem.look (Problem.ofTrees left right cost).distances i j) := by
    rw [subtree_eq left i leftInside, subtree_eq right j rightInside]
    exact known
  simp only [ordered_mapping_iff left right cost i j leftInside rightInside, mapping_cost_eq]
  exact least

/-- On every exact scale, the distance of two trees is the least cost of a mapping between them. -/
theorem whole_distance_least :
    IsLeast {total | ∃ pairs, OrderedMapping left right (left.size - 1) (right.size - 1) pairs ∧
        mappingCost cost left right (left.size - 1) (right.size - 1) pairs = total}
      (distance left right cost) := by
  have least := subtree_distance_least left right cost (left.size - 1) (right.size - 1)
    (Tree.last_inside left) (Tree.last_inside right)
  rwa [distance_of_trees]

end Mapping

/-- Whatever the costs of the operations are, also negative ones: the table of distances holds, for
every pair of subtrees, the least cost of a mapping between them, and the distance of two trees is
the least cost of a mapping between the trees. -/
theorem tree_distance_least (left right : SyntaxTree) (cost : CostModel Rat) :
    (∀ i < left.size, ∀ j < right.size,
      IsLeast {total | ∃ pairs, OrderedMapping left right i j pairs ∧
          mappingCost cost left right i j pairs = total}
        (Problem.look (Problem.ofTrees left right cost).distances i j)) ∧
    IsLeast {total | ∃ pairs, OrderedMapping left right (left.size - 1) (right.size - 1) pairs ∧
        mappingCost cost left right (left.size - 1) (right.size - 1) pairs = total}
      (distance left right cost) := by
  constructor
  · intro i leftInside j rightInside
    exact subtree_distance_least left right cost i j leftInside rightInside
  · exact whole_distance_least left right cost

/-- In a list of `a` and `b` and a list of `b`, the second word is mapped to the only one for
nothing. -/
theorem unit_distance_least :
    IsLeast {total | ∃ pairs, OrderedMapping
        (.node (Node.bare "list") [("0", .leaf (Node.bare "a")), ("1", .leaf (Node.bare "b"))])
        (.node (Node.bare "list") [("0", .leaf (Node.bare "b"))]) 1 0 pairs ∧
      mappingCost CostModel.unit
        (.node (Node.bare "list") [("0", .leaf (Node.bare "a")), ("1", .leaf (Node.bare "b"))])
        (.node (Node.bare "list") [("0", .leaf (Node.bare "b"))]) 1 0 pairs = total}
      (0 : Rat) := by
  have least := (tree_distance_least
    (.node (Node.bare "list") [("0", .leaf (Node.bare "a")), ("1", .leaf (Node.bare "b"))])
    (.node (Node.bare "list") [("0", .leaf (Node.bare "b"))]) CostModel.unit).1
      1 (by decide) 0 (by decide)
  have entry : Problem.look (Problem.ofTrees
      (.node (Node.bare "list") [("0", .leaf (Node.bare "a")), ("1", .leaf (Node.bare "b"))])
      (.node (Node.bare "list") [("0", .leaf (Node.bare "b"))])
      (CostModel.unit : CostModel Rat)).distances 1 0 = 0 := by
    cbv
  rwa [entry] at least

end Alignment

end TreeDelta
