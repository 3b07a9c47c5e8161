import Mathlib.Order.Interval.Finset.Nat
import TreeDelta.Alignment.Numbering
import TreeDelta.Proofs.Tree.Postorder

/-!
# The numbering of a tree

A numbering keeps of a tree only its nodes and the first number of each subtree. The statements here
say that this is enough: the nodes are those of the tree in post-order, and one node stands above
another exactly when the other's number lies in the run that begins with its first number and ends
before its own.

What the alignment needs of the numbers is collected in one property: every run ends with its own
number, and two runs are either apart or one inside the other.
-/

namespace TreeDelta

/-- The node of a tree with a post-order number. -/
def Tree.nodeAt (tree : SyntaxTree) (index : Nat) : Node :=
  tree.postorder.getD index Node.placeholder

namespace Numbering

mutual

/-- The entries of a tree are its places in post-order, each with its label and with the number that
leaves room for its subtree. -/
theorem entries_eq (above : List (Step Node)) (tree : SyntaxTree) (first : Nat) :
    entries first tree = ((Place.postorderFrom above tree).zipIdx first).map
      fun entry => (entry.1.label, entry.2 + 1 - entry.1.tree.size) := by
  cases tree with
  | node top branches =>
    have count := Place.postorder_branches_length (.node top branches) above 0 branches
    simp only [entries, Place.postorderFrom, List.zipIdx_append, List.map_append,
      entries_of_branches_eq (.node top branches) above 0 branches first]
    simp [count, Tree.size, Place.label, Nat.add_assoc]

/-- The same for a list of branches. -/
theorem entries_of_branches_eq (parent : SyntaxTree) (above : List (Step Node)) (index : Nat)
    (branches : List (String × SyntaxTree)) (first : Nat) :
    entriesOfBranches first branches =
      ((Place.postorderBranches parent above index branches).zipIdx first).map
        fun entry => (entry.1.label, entry.2 + 1 - entry.1.tree.size) := by
  cases branches with
  | nil => rfl
  | cons branch rest =>
    have count := Place.postorder_from_length (⟨parent, index⟩ :: above) branch.2
    simp only [entriesOfBranches, Place.postorderBranches, List.zipIdx_append, List.map_append,
      count, entries_eq (⟨parent, index⟩ :: above) branch.2 first,
      entries_of_branches_eq parent above (index + 1) rest]

end

/-- The entries of a whole tree, by its places in post-order. -/
theorem entries_of_tree (tree : SyntaxTree) :
    entries 0 tree = ((Place.top tree).postorder.zipIdx 0).map
      fun entry => (entry.1.label, entry.2 + 1 - entry.1.tree.size) :=
  entries_eq [] tree 0

/-- A numbering has the nodes of its tree in post-order. -/
theorem node_of_tree (tree : SyntaxTree) (index : Nat) :
    (ofTree tree).node index = tree.nodeAt index := by
  have labels : (entries 0 tree).map Prod.fst = tree.postorder := by
    rw [entries_of_tree, List.map_map]
    have same : (Prod.fst ∘ fun entry : Place Node × Nat =>
        (entry.1.label, entry.2 + 1 - entry.1.tree.size)) = Place.label ∘ Prod.fst := rfl
    rw [same, ← List.map_map, List.zipIdx_map_fst]
    exact Place.postorder_from_labels [] tree
  simp [node, ofTree, labels, Tree.nodeAt]

/-- A numbering has as many numbers as its tree has nodes. -/
theorem size_of_tree (tree : SyntaxTree) : (ofTree tree).size = tree.size := by
  simp [size, ofTree, entries_of_tree, Tree.postorder_length]

/-- The first number of a subtree leaves room for its nodes. -/
theorem first_of_found (tree : SyntaxTree) (index : Nat) (place : Place Node)
    (found : (Place.top tree).postorder[index]? = some place) :
    (ofTree tree).first index = index + 1 - place.tree.size := by
  simp [first, ofTree, entries_of_tree, found]

/-- The subtree of the last node is the whole tree. -/
theorem first_of_last (tree : SyntaxTree) : (ofTree tree).first (tree.size - 1) = 0 := by
  have found : (Place.top tree).postorder[tree.size - 1]? = some (Place.top tree) :=
    Place.postorder_last (Place.top tree)
  have last := tree.last_inside
  rw [first_of_found tree _ _ found]
  exact Nat.sub_eq_zero_of_le last

/-- The node with the number `lower` has a number in the run below `upper`. -/
def Over (numbering : Numbering) (upper lower : Nat) : Prop :=
  numbering.first upper ≤ lower ∧ lower < upper

/-- The nodes of the second forest, and everything below them, come after the first forest. -/
def Precedes (numbering : Numbering) (first second : Finset Nat) : Prop :=
  ∀ early ∈ first, ∀ late ∈ second, early < numbering.first late ∧ early < late

/-- Every run of numbers ends with the number that it belongs to, and the run of a number inside it
stays inside it. -/
structure Nested (numbering : Numbering) : Prop where
  first_le : ∀ index < numbering.size, numbering.first index ≤ index
  first_mono : ∀ upper < numbering.size, ∀ lower, numbering.first upper ≤ lower →
    lower ≤ upper → numbering.first upper ≤ numbering.first lower

/-- Whatever stands in front of a subtree precedes it. -/
theorem Nested.precedes {numbering : Numbering} (nested : numbering.Nested) (start index : Nat)
    (inside : index < numbering.size) :
    numbering.Precedes (Finset.Ico start (numbering.first index))
      (Finset.Ico (numbering.first index) (index + 1)) := by
  intro early before late within
  have earlyBound := (Finset.mem_Ico.mp before).2
  have lateBound := Finset.mem_Ico.mp within
  have later := nested.first_mono index inside late lateBound.1 (by omega)
  omega

/-- The runs of numbers tell who stands above whom. -/
theorem above_iff_over (tree : SyntaxTree) (upper lower : Nat) (inside : upper < tree.size) :
    tree.Above upper lower ↔ (ofTree tree).Over upper lower := by
  have bound : upper < (Place.top tree).postorder.length := by rwa [Tree.postorder_length]
  have found := List.getElem?_eq_getElem bound
  have room := Tree.subtree_size_le tree upper _ found
  rw [Tree.above_iff tree upper lower _ found, Over, first_of_found tree upper _ found]
  omega

/-- A subtree begins with its own top or with a node below that. -/
theorem first_le_of_tree (tree : SyntaxTree) (index : Nat) (inside : index < tree.size) :
    (ofTree tree).first index ≤ index := by
  have bound : index < (Place.top tree).postorder.length := by rwa [Tree.postorder_length]
  have found := List.getElem?_eq_getElem bound
  have nonempty : 0 < ((Place.top tree).postorder[index]).tree.size := by
    cases ((Place.top tree).postorder[index]).tree
    simp [Tree.size]
  rw [first_of_found tree index _ found]
  omega

/-- The numbering of a tree is nested: what begins a subtree inside another one stands below the top
of both. -/
theorem nested_of_tree (tree : SyntaxTree) : (ofTree tree).Nested := by
  have inTree (index : Nat) (inside : index < (ofTree tree).size) : index < tree.size :=
    size_of_tree tree ▸ inside
  refine ⟨fun index inside => first_le_of_tree tree index (inTree index inside), ?_⟩
  intro upper inside lower after notAfter
  have upperInside := inTree upper inside
  have lowerInside : lower < tree.size := by omega
  have begins := first_le_of_tree tree lower lowerInside
  rcases Nat.eq_or_lt_of_le notAfter with rfl | before
  · exact Nat.le_refl _
  rcases Nat.eq_or_lt_of_le begins with leaf | below
  · rwa [leaf]
  have outer := (above_iff_over tree upper lower upperInside).mpr ⟨after, before⟩
  have inner := (above_iff_over tree lower ((ofTree tree).first lower) lowerInside).mpr
    ⟨Nat.le_refl _, below⟩
  have both := Tree.above_trans tree upper lower _ outer inner
  exact ((above_iff_over tree upper _ upperInside).mp both).1

end Numbering

end TreeDelta
