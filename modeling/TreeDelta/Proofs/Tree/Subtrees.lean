import TreeDelta.Proofs.Tree.Preorder

/-!
# Subtrees and their keys

The subtrees of a tree are what stands at its places, and they do not depend on what stands above.
So a statement about every node of a tree may be read off the subtrees, branch by branch. The one
statement of this kind that is made everywhere is that the branches of every node have different
keys. It passes from a tree to its subtrees and is a matter of the keys alone, not of the labels.
-/

namespace TreeDelta

variable {α β : Type}

namespace Place

/-- A place seen from further out: more stands above it. -/
def under (outer : List (Step α)) (place : Place α) : Place α := ⟨place.tree, place.above ++ outer⟩

mutual

/-- What stands above a tree stands above all its places. -/
theorem preorder_from_under (above outer : List (Step α)) (tree : Tree α) :
    preorderFrom (above ++ outer) tree = (preorderFrom above tree).map (under outer) := by
  cases tree with
  | node label branches =>
    simp [preorderFrom, preorder_branches_under _ above outer 0 branches, under]

/-- The same for a list of branches. -/
theorem preorder_branches_under (parent : Tree α) (above outer : List (Step α)) (index : Nat)
    (branches : List (String × Tree α)) :
    preorderBranches parent (above ++ outer) index branches =
      (preorderBranches parent above index branches).map (under outer) := by
  cases branches with
  | nil => rfl
  | cons branch rest =>
    simp only [preorderBranches, List.map_append,
      preorder_branches_under parent above outer (index + 1) rest]
    rw [← List.cons_append, preorder_from_under (⟨parent, index⟩ :: above) outer branch.2]

end

mutual

/-- The places of a relabelled tree are its relabelled places. -/
theorem preorder_from_map (f : α → β) (above : List (Step α)) (tree : Tree α) :
    preorderFrom (above.map fun step => ⟨step.tree.map f, step.index⟩) (tree.map f) =
      (preorderFrom above tree).map (map f) := by
  cases tree with
  | node label branches =>
    have below := preorder_branches_map f (.node label branches) above 0 branches
    simp only [Tree.map] at below
    simp [preorderFrom, Tree.map, below, map]

/-- The same for a list of branches. -/
theorem preorder_branches_map (f : α → β) (parent : Tree α) (above : List (Step α)) (index : Nat)
    (branches : List (String × Tree α)) :
    preorderBranches (parent.map f) (above.map fun step => ⟨step.tree.map f, step.index⟩) index
        (Tree.mapBranches f branches) =
      (preorderBranches parent above index branches).map (map f) := by
  cases branches with
  | nil => rfl
  | cons branch rest =>
    have first := preorder_from_map f (⟨parent, index⟩ :: above) branch.2
    rw [List.map_cons] at first
    simp only [preorderBranches, Tree.mapBranches, List.map_append, first,
      preorder_branches_map f parent above (index + 1) rest]

end

/-- The places below the top of a relabelled tree are the relabelled places. -/
theorem preorder_map (f : α → β) (tree : Tree α) :
    (top (tree.map f)).preorder = (top tree).preorder.map (map f) :=
  preorder_from_map f [] tree

/-- Relabelling changes no path. -/
@[simp] theorem path_map (f : α → β) (place : Place α) : (place.map f).path = place.path := by
  simp [path, map, Function.comp_def]

end Place

namespace Tree

/-- The subtrees of a tree in pre-order, the tree itself first. -/
def subtrees (tree : Tree α) : List (Tree α) := (Place.top tree).preorder.map Place.tree

/-- The subtrees do not depend on what stands above. -/
theorem subtrees_from (above : List (Step α)) (tree : Tree α) :
    (Place.preorderFrom above tree).map Place.tree = tree.subtrees := by
  have lifted := Place.preorder_from_under [] above tree
  rw [List.nil_append] at lifted
  rw [lifted, List.map_map]
  rfl

/-- The subtrees of a list of branches do not depend on where it stands. -/
theorem subtrees_branches (parent : Tree α) (above : List (Step α)) (index : Nat)
    (branches : List (String × Tree α)) :
    (Place.preorderBranches parent above index branches).map Place.tree =
      branches.flatMap fun branch => branch.2.subtrees := by
  induction branches generalizing index with
  | nil => rfl
  | cons branch rest inductionHypothesis =>
    simp [Place.preorderBranches, subtrees_from, inductionHypothesis]

/-- The subtrees of a tree are the tree and those of its branches. -/
@[simp] theorem subtrees_node (label : α) (branches : List (String × Tree α)) :
    (node label branches).subtrees =
      node label branches :: branches.flatMap fun branch => branch.2.subtrees := by
  simp [subtrees, Place.preorder, Place.top, Place.preorderFrom, subtrees_branches]

/-- The labels of a tree are those at the tops of its subtrees. -/
theorem subtrees_labels (tree : Tree α) : tree.subtrees.map label = tree.preorder := by
  rw [subtrees, List.map_map]
  exact Place.preorder_labels (Place.top tree)

/-- A subtree of a subtree is a subtree. -/
theorem subtrees_trans {tree middle lower : Tree α} (upper : middle ∈ tree.subtrees)
    (inner : lower ∈ middle.subtrees) : lower ∈ tree.subtrees := by
  induction tree using Tree.induct with
  | node label branches inductionHypothesis =>
    simp only [subtrees_node, List.mem_cons, List.mem_flatMap] at upper ⊢
    rcases upper with rfl | ⟨branch, member, below⟩
    · simpa using inner
    · exact .inr ⟨branch, member, inductionHypothesis branch member below⟩

/-- A relabelled tree has the relabelled subtrees. -/
theorem subtrees_map (f : α → β) (tree : Tree α) :
    (tree.map f).subtrees = tree.subtrees.map (map f) := by
  induction tree using Tree.induct with
  | node label branches inductionHypothesis =>
    simp only [map, mapBranches_eq, subtrees_node, List.flatMap_map, List.map_cons,
      List.map_flatMap]
    refine congrArg (List.cons _) (List.flatMap_congr fun branch member => ?_)
    exact inductionHypothesis branch member

/-- The label of a relabelled tree. -/
@[simp] theorem label_map (f : α → β) (tree : Tree α) : (tree.map f).label = f tree.label := by
  cases tree
  rfl

/-- A relabelled tree has the changed labels. -/
theorem preorder_map (f : α → β) (tree : Tree α) :
    (tree.map f).preorder = tree.preorder.map f := by
  rw [← subtrees_labels, ← subtrees_labels, subtrees_map, List.map_map, List.map_map]
  exact List.map_congr_left fun subtree _ => label_map f subtree

/-- Relabelling twice is relabelling once. -/
theorem map_map {γ : Type} (f : α → β) (g : β → γ) (tree : Tree α) :
    (tree.map f).map g = tree.map fun label => g (f label) := by
  induction tree using Tree.induct with
  | node label branches inductionHypothesis =>
    simp only [map, mapBranches_eq, List.map_map]
    refine congrArg (node (g (f label))) (List.map_congr_left fun branch member => ?_)
    exact congrArg (Prod.mk branch.1) (inductionHypothesis branch member)

/-- Relabelling with the same labels changes nothing. -/
theorem map_same (tree : Tree α) : (tree.map fun label => label) = tree := by
  induction tree using Tree.induct with
  | node label branches inductionHypothesis =>
    simp only [map, mapBranches_eq]
    refine congrArg (node label) ((List.map_congr_left fun branch member => ?_).trans
      (List.map_id _))
    exact congrArg (Prod.mk branch.1) (inductionHypothesis branch member)

/-- Whether the branches of every node of a tree have different keys. -/
def KeysDiffer (tree : Tree α) : Prop := ∀ subtree ∈ tree.subtrees, subtree.relations.Nodup

/-- Keys differ in a tree if they do at its top and in its branches. -/
theorem keys_differ_node (label : α) (branches : List (String × Tree α)) :
    (node label branches).KeysDiffer ↔
      (branches.map Prod.fst).Nodup ∧ ∀ branch ∈ branches, branch.2.KeysDiffer := by
  simp only [KeysDiffer, subtrees_node, List.mem_cons, List.mem_flatMap]
  constructor
  · intro differ
    exact ⟨differ _ (.inl rfl), fun branch member subtree inside =>
      differ subtree (.inr ⟨branch, member, inside⟩)⟩
  · rintro ⟨top, below⟩ subtree (rfl | ⟨branch, member, inside⟩)
    · exact top
    · exact below branch member subtree inside

/-- A leaf has no keys. -/
theorem keys_differ_leaf (label : α) : (leaf label).KeysDiffer :=
  (keys_differ_node label []).mpr ⟨List.nodup_nil, by simp⟩

/-- If keys differ in a tree, they do in its subtrees. -/
theorem KeysDiffer.of_subtree {tree subtree : Tree α} (differ : tree.KeysDiffer)
    (inside : subtree ∈ tree.subtrees) : subtree.KeysDiffer :=
  fun lower below => differ lower (subtrees_trans inside below)

/-- Labels have no part in whether keys differ. -/
theorem keys_differ_map (f : α → β) (tree : Tree α) :
    (tree.map f).KeysDiffer ↔ tree.KeysDiffer := by
  have relations (subtree : Tree α) : (subtree.map f).relations = subtree.relations := by
    cases subtree with
    | node label branches => simp [Tree.relations, map, mapBranches_eq, Function.comp_def]
  simp [KeysDiffer, subtrees_map, relations]

end Tree

end TreeDelta
