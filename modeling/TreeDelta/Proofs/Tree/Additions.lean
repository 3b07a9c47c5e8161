import TreeDelta.Proofs.Tree.Corresponding
import TreeDelta.Proofs.Tree.Subtrees

/-!
# Places that a tree gains

When a tree gains a subtree behind the other branches of a node, no index changes. The places that
it had are still there, with the same labels, at the same paths and in the same order, though what
stands above them may have grown; the places of the subtree come all together somewhere between
them.
-/

namespace TreeDelta.Place

variable {α β : Type}

/-- The places of a list of branches come before those of the branches behind it. -/
theorem preorder_branches_append (parent : Tree α) (above : List (Step α)) (index : Nat)
    (first second : List (String × Tree α)) :
    preorderBranches parent above index (first ++ second) =
      preorderBranches parent above index first ++
        preorderBranches parent above (index + first.length) second := by
  induction first generalizing index with
  | nil => rfl
  | cons branch rest inductionHypothesis =>
    rw [List.cons_append, preorderBranches, preorderBranches, inductionHypothesis,
      List.append_assoc, List.length_cons, Nat.add_right_comm, Nat.add_assoc]

/-- Below a place that has something above it, every place has. -/
theorem above_of_listed {place lower : Place α} (listed : lower ∈ place.preorder)
    (below : place.above ≠ []) : lower.above ≠ [] := by
  have lifted := preorder_from_under [] place.above place.tree
  rw [List.nil_append] at lifted
  rw [preorder, lifted] at listed
  obtain ⟨inner, -, rfl⟩ := List.mem_map.mp listed
  exact fun nothing => below (List.append_eq_nil_iff.mp nothing).2

variable [DecidableEq α] [DecidableEq β]

/-- Two places correspond, and so do all places above, with the same labels. -/
abbrev Same : Place α → Place α → Prop :=
  Corresponds (fun label other => decide (label = other)) fun label other => decide (label = other)

/-- Corresponding places carry the same. -/
theorem Same.label {place other : Place α} (same : Same place other) :
    place.label = other.label := by
  cases same with
  | top labels => exact of_decide_eq_true labels
  | child _ _ labels => exact of_decide_eq_true labels

/-- The same place may be seen from either tree. -/
theorem Same.symm {place other : Place α} (same : Same place other) : Same other place := by
  induction same with
  | top labels => exact .top (decide_eq_true (of_decide_eq_true labels).symm)
  | child _ index labels inductionHypothesis =>
    exact .child inductionHypothesis index.symm (decide_eq_true (of_decide_eq_true labels).symm)

/-- Places that are the same are so after relabelling. -/
theorem Same.map (f : α → β) {place other : Place α} (same : Same place other) :
    Same (place.map f) (other.map f) := by
  have relabelled {first second : Tree α} (labels : decide (first.label = second.label) = true) :
      decide ((first.map f).label = (second.map f).label) = true := by
    rw [Tree.label_map, Tree.label_map, of_decide_eq_true labels]
    exact decide_eq_true rfl
  induction same with
  | top labels => exact .top (relabelled labels)
  | child _ index labels inductionHypothesis =>
    exact .child inductionHypothesis index (relabelled labels)

mutual

/-- A tree corresponds to itself. -/
theorem corresponds_self (tree : Tree α) :
    Tree.corresponds (fun label other => decide (label = other)) tree tree = true := by
  cases tree with
  | node label branches =>
    rw [Tree.corresponds, decide_eq_true rfl, Bool.true_and, corresponds_branches_self branches]

/-- A list of branches corresponds to itself. -/
theorem corresponds_branches_self (branches : List (String × Tree α)) :
    Tree.correspondsBranches (fun label other => decide (label = other)) branches branches =
      true := by
  cases branches with
  | nil => rfl
  | cons branch rest =>
    rw [Tree.correspondsBranches, corresponds_self branch.2, Bool.true_and,
      corresponds_branches_self rest]

end

/-- A tree that stands at two corresponding places has corresponding places. -/
theorem tree_same {tree : Tree α} {above grownAbove : List (Step α)}
    (here : Same ⟨tree, above⟩ ⟨tree, grownAbove⟩) :
    List.Forall₂ Same (preorderFrom above tree) (preorderFrom grownAbove tree) :=
  preorder_from_corresponds here (corresponds_branches_self tree.branches)

/-- The branches that two corresponding places have in common have corresponding places. -/
theorem branches_same {parent grown : Tree α} {above grownAbove : List (Step α)}
    (here : Same ⟨parent, above⟩ ⟨grown, grownAbove⟩) (index : Nat)
    (branches : List (String × Tree α)) :
    List.Forall₂ Same (preorderBranches parent above index branches)
      (preorderBranches grown grownAbove index branches) :=
  preorder_branches_corresponds here index (corresponds_branches_self branches)

/-- One list of places consists of those of another list, in order, and of all places from an added
one downwards, which stand together. -/
def Gains (places grown : List (Place α)) (added : Place α) : Prop :=
  ∃ front back, grown = front ++ added.preorder ++ back ∧
    List.Forall₂ Same places (front ++ back)

/-- A node that gets a tree behind its branches gains the places of that tree. -/
theorem gains_last {label : α} {branches : List (String × Tree α)} {branch : String × Tree α}
    {above grownAbove : List (Step α)}
    (here : Same ⟨.node label branches, above⟩ ⟨.node label (branches ++ [branch]), grownAbove⟩) :
    Gains (preorderFrom above (.node label branches))
      (preorderFrom grownAbove (.node label (branches ++ [branch])))
      (Place.down ⟨.node label (branches ++ [branch]), grownAbove⟩ branches.length branch.2) := by
  refine ⟨⟨.node label (branches ++ [branch]), grownAbove⟩ ::
    preorderBranches (.node label (branches ++ [branch])) grownAbove 0 branches, [], ?_, ?_⟩
  · rw [preorderFrom, preorder_branches_append, Nat.zero_add, preorderBranches, preorderBranches,
      List.append_nil, List.append_nil]
    rfl
  · rw [List.append_nil, preorderFrom]
    exact .cons here (branches_same here 0 branches)

variable {places grown others grownOthers : List (Place α)} {added : Place α}

/-- Places that are put in front of both lists are gained by neither. -/
theorem Gains.behind (gains : Gains places grown added)
    (same : List.Forall₂ Same others grownOthers) :
    Gains (others ++ places) (grownOthers ++ grown) added := by
  obtain ⟨front, back, rfl, kept⟩ := gains
  refine ⟨grownOthers ++ front, back, by simp only [List.append_assoc], ?_⟩
  rw [List.append_assoc]
  exact List.rel_append same kept

/-- Places that are put behind both lists are gained by neither. -/
theorem Gains.before (gains : Gains places grown added)
    (same : List.Forall₂ Same others grownOthers) :
    Gains (places ++ others) (grown ++ grownOthers) added := by
  obtain ⟨front, back, rfl, kept⟩ := gains
  refine ⟨front, back ++ grownOthers, by simp only [List.append_assoc], ?_⟩
  rw [← List.append_assoc]
  exact List.rel_append kept same

/-- Relabelled places are gained where the places are. -/
theorem Gains.map (f : α → β) (gains : Gains places grown added) :
    Gains (places.map (Place.map f)) (grown.map (Place.map f)) (added.map f) := by
  obtain ⟨front, back, rfl, kept⟩ := gains
  have inner : (added.map f).preorder = added.preorder.map (Place.map f) :=
    preorder_from_map f added.above added.tree
  refine ⟨front.map (Place.map f), back.map (Place.map f), ?_, ?_⟩
  · rw [inner, List.map_append, List.map_append]
  · rw [← List.map_append]
    exact List.rel_map (fun _ _ same => Same.map f same) kept

/-- The labels of both lists of places differ by those of the added tree. -/
theorem Gains.labels (gains : Gains places grown added) :
    (grown.map Place.label).Perm (places.map Place.label ++ added.tree.preorder) := by
  obtain ⟨front, back, rfl, kept⟩ := gains
  have labels : places.map Place.label = (front ++ back).map Place.label :=
    List.forall₂_eq_eq_eq ▸ List.rel_map (fun _ _ same => Same.label same) kept
  rw [labels, ← preorder_labels, List.append_assoc, List.map_append, List.map_append,
    List.map_append, List.append_assoc]
  exact .append_left _ List.perm_append_comm

end TreeDelta.Place
