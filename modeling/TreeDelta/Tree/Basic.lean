/-!
# Ordered trees with keyed branches

A tree is a label and a list of branches. A branch is a key and the tree below it, so the key
belongs to the edge and not to either of its ends: a tree taken out of its surroundings has no key
left over. The order of the branches is part of the tree; nothing here requires their keys to
differ.

Every function that walks a tree is a pair: one half takes a tree, the other takes its list of
branches. The lemmas beside them express the second half by the library's list functions.
-/

namespace TreeDelta

/-- A label over a list of keyed branches. -/
inductive Tree (α : Type) where
  | node (label : α) (branches : List (String × Tree α))
  deriving Inhabited

namespace Tree

variable {α β : Type}

/-- The label at the top. -/
def label : Tree α → α
  | node label _ => label

/-- The branches at the top, in order. -/
def branches : Tree α → List (String × Tree α)
  | node _ branches => branches

/-- The trees below the top, in order. -/
def children (tree : Tree α) : List (Tree α) := tree.branches.map Prod.snd

/-- The keys of the branches at the top, in order. -/
def relations (tree : Tree α) : List String := tree.branches.map Prod.fst

/-- A tree without branches. -/
def leaf (label : α) : Tree α := node label []

/-- The label of a node is the one that it was made with. -/
@[simp] theorem label_node (label : α) (branches : List (String × Tree α)) :
    (node label branches).label = label := rfl

/-- The branches of a node are those that it was made with. -/
@[simp] theorem branches_node (label : α) (branches : List (String × Tree α)) :
    (node label branches).branches = branches := rfl

/-- A tree is the node of its own label and branches. -/
@[simp] theorem node_label_branches (tree : Tree α) : node tree.label tree.branches = tree := by
  cases tree
  rfl

/-- A property holds of every tree if it passes from the branches to the tree above them. -/
@[elab_as_elim]
theorem induct {motive : Tree α → Prop}
    (node : ∀ label branches, (∀ branch ∈ branches, motive branch.2) →
      motive (.node label branches))
    (tree : Tree α) : motive tree :=
  @Tree.rec α motive (fun branches => ∀ branch ∈ branches, motive branch.2)
    (fun branch => motive branch.2) (fun label branches below => node label branches below)
    (fun _ absurdity => nomatch absurdity)
    (fun _ _ first rest branch membership => by
      cases membership with
      | head => exact first
      | tail _ later => exact rest branch later)
    (fun _ _ below => below) tree

mutual

/-- The number of labels of a tree. -/
def size : Tree α → Nat
  | node _ branches => sizeBranches branches + 1

/-- The number of labels in a list of branches. -/
def sizeBranches : List (String × Tree α) → Nat
  | [] => 0
  | (_, child) :: rest => size child + sizeBranches rest

end

mutual

/-- The labels of a tree, each before those of its branches. -/
def preorder : Tree α → List α
  | node label branches => label :: preorderBranches branches

/-- The labels of a list of branches, branch after branch. -/
def preorderBranches : List (String × Tree α) → List α
  | [] => []
  | (_, child) :: rest => preorder child ++ preorderBranches rest

end

mutual

/-- The labels of a tree, each after those of its branches. -/
def postorder : Tree α → List α
  | node label branches => postorderBranches branches ++ [label]

/-- The labels of a list of branches, branch after branch. -/
def postorderBranches : List (String × Tree α) → List α
  | [] => []
  | (_, child) :: rest => postorder child ++ postorderBranches rest

end

mutual

/-- Relabel a tree; keys and order stay. -/
def map (f : α → β) : Tree α → Tree β
  | node label branches => node (f label) (mapBranches f branches)

/-- Relabel a list of branches. -/
def mapBranches (f : α → β) : List (String × Tree α) → List (String × Tree β)
  | [] => []
  | (relation, child) :: rest => (relation, map f child) :: mapBranches f rest

end

/-- The labels of several branches in pre-order, one branch after the other. -/
theorem preorderBranches_eq (branches : List (String × Tree α)) :
    preorderBranches branches = branches.flatMap fun branch => branch.2.preorder := by
  induction branches with
  | nil => rfl
  | cons branch rest inductionHypothesis => simp [preorderBranches, inductionHypothesis]

/-- The labels of several branches in post-order, one branch after the other. -/
theorem postorderBranches_eq (branches : List (String × Tree α)) :
    postorderBranches branches = branches.flatMap fun branch => branch.2.postorder := by
  induction branches with
  | nil => rfl
  | cons branch rest inductionHypothesis => simp [postorderBranches, inductionHypothesis]

/-- Branches are mapped one by one and keep their keys. -/
theorem mapBranches_eq (f : α → β) (branches : List (String × Tree α)) :
    mapBranches f branches = branches.map fun branch => (branch.1, branch.2.map f) := by
  induction branches with
  | nil => rfl
  | cons branch rest inductionHypothesis => simp [mapBranches, inductionHypothesis]

end Tree

end TreeDelta
