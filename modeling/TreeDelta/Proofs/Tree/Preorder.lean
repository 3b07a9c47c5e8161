import TreeDelta.Proofs.Tree.Postorder

/-!
# Places below a place

A place is reached from another one by steps down along branches. The pre-order of a place lists
exactly the places that are reached from it, each of them once, and the path of a place leads to it
and to no other place. Reaching is what proofs about places go by induction on: a place is where one
starts, or it is one branch below a place that has been reached before.
-/

namespace TreeDelta

variable {α : Type}

namespace Place

/-- A place is reached from `root` by steps down, each along a branch that is there. -/
inductive Reaches (root : Place α) : Place α → Prop where
  | here : Reaches root root
  | down {place : Place α} {index : Nat} {child : Tree α} (reached : Reaches root place)
      (branch : place.tree.children[index]? = some child) :
      Reaches root (place.down index child)

/-- Steps down can be continued. -/
theorem Reaches.trans {root middle place : Place α} (first : Reaches root middle)
    (second : Reaches middle place) : Reaches root place := by
  induction second with
  | here => exact first
  | down _ branch inductionHypothesis => exact inductionHypothesis.down branch

/-- The places of a list of branches are those of its members, each below its own index. -/
theorem mem_preorder_branches (parent : Tree α) (above : List (Step α)) (index : Nat)
    (branches : List (String × Tree α)) (place : Place α) :
    place ∈ preorderBranches parent above index branches ↔
      ∃ offset branch, branches[offset]? = some branch ∧
        place ∈ preorderFrom (⟨parent, index + offset⟩ :: above) branch.2 := by
  induction branches generalizing index with
  | nil => simp [preorderBranches]
  | cons first rest inductionHypothesis =>
    simp only [preorderBranches, List.mem_append, inductionHypothesis]
    constructor
    · rintro (inside | ⟨offset, branch, found, inside⟩)
      · exact ⟨0, first, rfl, inside⟩
      · refine ⟨offset + 1, branch, found, ?_⟩
        rwa [Nat.add_assoc, Nat.add_comm 1 offset] at inside
    · rintro ⟨offset, branch, found, inside⟩
      cases offset with
      | zero =>
        obtain rfl : first = branch := by simpa using found
        exact .inl inside
      | succ offset =>
        refine .inr ⟨offset, branch, by simpa using found, ?_⟩
        rwa [Nat.add_assoc, Nat.add_comm 1 offset]

/-- The places of a tree are its own place and those of its children. -/
theorem mem_preorder_from (tree : Tree α) (above : List (Step α)) (place : Place α) :
    place ∈ preorderFrom above tree ↔ place = ⟨tree, above⟩ ∨
      ∃ index child, tree.children[index]? = some child ∧
        place ∈ preorderFrom (⟨tree, index⟩ :: above) child := by
  cases tree with
  | node label branches =>
    simp only [preorderFrom, List.mem_cons, mem_preorder_branches, Nat.zero_add, Tree.children,
      Tree.branches_node, List.getElem?_map, Option.map_eq_some_iff]
    constructor
    · rintro (top | ⟨index, branch, found, inside⟩)
      · exact .inl top
      · exact .inr ⟨index, branch.2, ⟨branch, found, rfl⟩, inside⟩
    · rintro (top | ⟨index, _, ⟨branch, found, rfl⟩, inside⟩)
      · exact .inl top
      · exact .inr ⟨index, branch, found, inside⟩

/-- A child is one of the trees that the branches lead to. -/
theorem child_of_branch {label : α} {branches : List (String × Tree α)} {index : Nat}
    {child : Tree α} (found : (Tree.node label branches).children[index]? = some child) :
    ∃ branch ∈ branches, branch.2 = child := by
  simp only [Tree.children, Tree.branches_node, List.getElem?_map,
    Option.map_eq_some_iff] at found
  obtain ⟨branch, at_index, same⟩ := found
  exact ⟨branch, List.mem_of_getElem? at_index, same⟩

/-- A listed place is reached. -/
theorem reaches_of_listed (tree : Tree α) (above : List (Step α)) (place : Place α)
    (listed : place ∈ preorderFrom above tree) : Reaches ⟨tree, above⟩ place := by
  induction tree using Tree.induct generalizing above with
  | node label branches inductionHypothesis =>
    rcases (mem_preorder_from _ _ _).mp listed with rfl | ⟨index, child, found, inside⟩
    · exact .here
    · obtain ⟨branch, member, rfl⟩ := child_of_branch found
      have step : Reaches ⟨.node label branches, above⟩
          ((Place.mk (.node label branches) above).down index branch.2) := .down .here found
      exact step.trans (inductionHypothesis branch member _ inside)

/-- With a place its children are listed. -/
theorem listed_down (tree : Tree α) (above : List (Step α)) (place : Place α) (index : Nat)
    (child : Tree α) (listed : place ∈ preorderFrom above tree)
    (found : place.tree.children[index]? = some child) :
    place.down index child ∈ preorderFrom above tree := by
  induction tree using Tree.induct generalizing above with
  | node label branches inductionHypothesis =>
    rw [mem_preorder_from]
    rcases (mem_preorder_from _ _ _).mp listed with rfl | ⟨step, next, stepFound, inside⟩
    · exact .inr ⟨index, child, found, (mem_preorder_from _ _ _).mpr (.inl rfl)⟩
    · obtain ⟨branch, member, rfl⟩ := child_of_branch stepFound
      exact .inr ⟨step, branch.2, stepFound, inductionHypothesis branch member _ inside⟩

/-- Pre-order lists what is reached. -/
theorem mem_preorder_iff (root place : Place α) : place ∈ root.preorder ↔ Reaches root place := by
  constructor
  · exact reaches_of_listed root.tree root.above place
  · intro reached
    induction reached with
    | here => exact (mem_preorder_from _ _ _).mpr (.inl rfl)
    | down _ branch inductionHypothesis =>
      exact listed_down _ _ _ _ _ inductionHypothesis branch

/-- The path of a reached place leads to it. -/
theorem Reaches.follows {root place : Place α} (reached : Reaches root place) :
    ∃ steps, place.path = root.path ++ steps ∧ root.follow? steps = some place := by
  induction reached with
  | here => exact ⟨[], by simp, rfl⟩
  | @down place index child _ branch inductionHypothesis =>
    obtain ⟨steps, path, followed⟩ := inductionHypothesis
    refine ⟨steps ++ [index], ?_, ?_⟩
    · rw [Place.down, path_step, path, List.append_assoc]
    · have before : List.foldlM child? root steps = some place := followed
      simp [follow?, List.foldlM_append, before, child?, branch]

/-- The path tells the places below a place apart. -/
theorem Reaches.eq_of_path {root first second : Place α} (firstReached : Reaches root first)
    (secondReached : Reaches root second) (same : first.path = second.path) : first = second := by
  obtain ⟨firstSteps, firstPath, firstFollowed⟩ := firstReached.follows
  obtain ⟨secondSteps, secondPath, secondFollowed⟩ := secondReached.follows
  obtain rfl : firstSteps = secondSteps :=
    List.append_cancel_left (firstPath.symm.trans (same.trans secondPath))
  exact Option.some.inj (firstFollowed.symm.trans secondFollowed)

/-- A place below another one is that one, or it is a child of a place below it. -/
theorem Reaches.parent {root : Place α} {tree : Tree α} {up : Step α} {further : List (Step α)}
    (reached : Reaches root ⟨tree, up :: further⟩) :
    root = ⟨tree, up :: further⟩ ∨
      Reaches root ⟨up.tree, further⟩ ∧ up.tree.children[up.index]? = some tree := by
  generalize whole : Place.mk tree (up :: further) = place at reached
  cases reached with
  | here => exact .inl rfl
  | down above branch =>
    simp only [Place.down, Place.mk.injEq, List.cons.injEq] at whole
    obtain ⟨rfl, rfl, rfl⟩ := whole
    exact .inr ⟨above, branch⟩

/-- The path to a place leads on to the places below it. -/
theorem path_of_listed {root place : Place α} (listed : place ∈ root.preorder) :
    root.path <+: place.path := by
  obtain ⟨steps, path, -⟩ := ((mem_preorder_iff _ _).mp listed).follows
  exact ⟨steps, path.symm⟩

/-- The places below a place are the place itself and those below its children. -/
theorem listed_iff (place lower : Place α) :
    lower ∈ place.preorder ↔ lower = place ∨
      ∃ index child, place.tree.children[index]? = some child ∧
        lower ∈ (place.down index child).preorder :=
  mem_preorder_from place.tree place.above lower

/-- A property holds of every place if it passes from the children of a place to the place. -/
@[elab_as_elim]
theorem induct_down {motive : Place α → Prop}
    (up : ∀ place : Place α, (∀ index child, place.tree.children[index]? = some child →
      motive (place.down index child)) → motive place) (place : Place α) : motive place := by
  obtain ⟨tree, above⟩ := place
  induction tree using Tree.induct generalizing above with
  | node label branches inductionHypothesis =>
    refine up _ fun index child found => ?_
    obtain ⟨branch, member, rfl⟩ := child_of_branch found
    exact inductionHypothesis branch member _

/-- A place below the top of a tree is a child of its parent, which is a place of the tree. -/
theorem parent_listed {whole tree : Tree α} {up : Step α} {further : List (Step α)}
    (listed : Place.mk tree (up :: further) ∈ (top whole).preorder) :
    Place.mk up.tree further ∈ (top whole).preorder ∧ up.tree.children[up.index]? = some tree := by
  obtain atTop | ⟨reached, branch⟩ := ((mem_preorder_iff _ _).mp listed).parent
  · exact absurd atTop (by simp [top])
  · exact ⟨(mem_preorder_iff _ _).mpr reached, branch⟩

/-- Only the top of a tree has nothing above it. -/
theorem at_top_iff {whole : Tree α} {place : Place α} (listed : place ∈ (top whole).preorder) :
    place.above = [] ↔ place = top whole := by
  constructor
  · intro alone
    refine Reaches.eq_of_path ((mem_preorder_iff _ _).mp listed) .here ?_
    rw [path, alone]
    rfl
  · rintro rfl
    rfl

/-- A child is found at its index below its parent. -/
theorem child_found {tree : Tree α} {up : Step α} (further : List (Step α))
    (branch : up.tree.children[up.index]? = some tree) :
    child? ⟨up.tree, further⟩ up.index = some ⟨tree, up :: further⟩ := by
  rw [child?, branch]
  rfl

/-- Children at the same index of the same place are the same. -/
theorem same_child {first second : Tree α} {firstUp secondUp : Step α}
    {firstFurther secondFurther : List (Step α)}
    (sameParent : Place.mk firstUp.tree firstFurther = ⟨secondUp.tree, secondFurther⟩)
    (sameIndex : firstUp.index = secondUp.index)
    (firstBranch : firstUp.tree.children[firstUp.index]? = some first)
    (secondBranch : secondUp.tree.children[secondUp.index]? = some second) :
    Place.mk first (firstUp :: firstFurther) = ⟨second, secondUp :: secondFurther⟩ := by
  obtain ⟨firstTree, firstIndex⟩ := firstUp
  obtain ⟨secondTree, secondIndex⟩ := secondUp
  obtain ⟨rfl, rfl⟩ := Place.mk.inj sameParent
  obtain rfl : firstIndex = secondIndex := sameIndex
  rw [Option.some.inj (firstBranch.symm.trans secondBranch)]

mutual

/-- Pre-order and post-order list the same places. -/
theorem preorder_from_perm (above : List (Step α)) (tree : Tree α) :
    (preorderFrom above tree).Perm (postorderFrom above tree) := by
  cases tree with
  | node label branches =>
    simp only [preorderFrom, postorderFrom]
    exact ((preorder_branches_perm _ above 0 branches).cons _).trans
      (List.perm_append_singleton _ _).symm

/-- Pre-order and post-order list the same places of a list of branches. -/
theorem preorder_branches_perm (parent : Tree α) (above : List (Step α)) (index : Nat)
    (branches : List (String × Tree α)) :
    (preorderBranches parent above index branches).Perm
      (postorderBranches parent above index branches) := by
  cases branches with
  | nil => exact .refl _
  | cons branch rest =>
    simp only [preorderBranches, postorderBranches]
    exact (preorder_from_perm _ branch.2).append
      (preorder_branches_perm parent above (index + 1) rest)

end

mutual

/-- The places of a subtree in pre-order carry its labels in pre-order. -/
theorem preorder_from_labels (above : List (Step α)) (tree : Tree α) :
    (preorderFrom above tree).map label = tree.preorder := by
  cases tree with
  | node top branches =>
    simp [preorderFrom, Tree.preorder, preorder_branches_labels _ above 0 branches, label]

/-- The places of a list of branches in pre-order carry their labels in pre-order. -/
theorem preorder_branches_labels (parent : Tree α) (above : List (Step α)) (index : Nat)
    (branches : List (String × Tree α)) :
    (preorderBranches parent above index branches).map label =
      Tree.preorderBranches branches := by
  cases branches with
  | nil => rfl
  | cons branch rest =>
    simp [preorderBranches, Tree.preorderBranches, preorder_from_labels _ branch.2,
      preorder_branches_labels parent above (index + 1) rest]

end

/-- The places of a subtree carry its labels. -/
theorem preorder_labels (place : Place α) : place.preorder.map label = place.tree.preorder :=
  preorder_from_labels place.above place.tree

/-- A tree has a label exactly if one of its places carries it. -/
theorem mem_labels_iff (tree : Tree α) (carried : α) :
    carried ∈ tree.preorder ↔ ∃ place ∈ (top tree).preorder, place.label = carried := by
  have labels : (top tree).preorder.map label = tree.preorder := preorder_labels (top tree)
  rw [← labels, List.mem_map]

/-- Pre-order and post-order list the same places below a place. -/
theorem preorder_perm (place : Place α) : place.preorder.Perm place.postorder :=
  preorder_from_perm place.above place.tree

/-- A subtree has as many places as nodes. -/
theorem preorder_length (place : Place α) : place.preorder.length = place.tree.size :=
  place.preorder_perm.length_eq.trans place.postorder_length

/-- The places of a subtree in pre-order have different paths. -/
theorem preorder_paths_differ (place : Place α) :
    place.preorder.Pairwise fun early late => early.path ≠ late.path :=
  (place.preorder_perm.pairwise_iff Ne.symm).mpr (postorder_paths_differ place)

end Place

end TreeDelta
