import Mathlib.Data.List.Forall2
import TreeDelta.Tree.Place

/-!
# Trees of the same shape

Two trees have the same shape if their branches can be gone through side by side, whatever their
keys. Every place of the one then corresponds to the place of the other at the same path, and so do
the places above. What is asked of the labels of corresponding places may be another thing at the
tops than anywhere below.
-/

namespace TreeDelta

variable {α β : Type}

namespace Tree

mutual

/-- Whether two trees have the same shape and the labels of corresponding places go together. -/
def corresponds (goes : α → β → Bool) : Tree α → Tree β → Bool
  | .node first firstBranches, .node second secondBranches =>
    goes first second && correspondsBranches goes firstBranches secondBranches

/-- The same for two lists of branches, branch by branch. -/
def correspondsBranches (goes : α → β → Bool) :
    List (String × Tree α) → List (String × Tree β) → Bool
  | [], [] => true
  | (_, first) :: firstRest, (_, second) :: secondRest =>
    corresponds goes first second && correspondsBranches goes firstRest secondRest
  | _, _ => false

end

/-- Corresponding trees have corresponding branches and labels that go together. -/
theorem corresponds_iff (goes : α → β → Bool) (first : Tree α) (second : Tree β) :
    corresponds goes first second = true ↔ goes first.label second.label = true ∧
      correspondsBranches goes first.branches second.branches = true := by
  obtain ⟨firstLabel, firstBranches⟩ := first
  obtain ⟨secondLabel, secondBranches⟩ := second
  simp only [corresponds, Bool.and_eq_true, label_node, branches_node]

mutual

/-- Corresponding trees have as many nodes as each other. -/
theorem size_of_corresponds {goes : α → β → Bool} {first : Tree α} {second : Tree β}
    (same : corresponds goes first second = true) : first.size = second.size := by
  cases first with
  | node firstLabel firstBranches =>
    cases second with
    | node secondLabel secondBranches =>
      rw [corresponds, Bool.and_eq_true] at same
      rw [size, size, size_of_corresponding_branches same.2]

/-- The same for two lists of branches. -/
theorem size_of_corresponding_branches {goes : α → β → Bool}
    {firstBranches : List (String × Tree α)} {secondBranches : List (String × Tree β)}
    (same : correspondsBranches goes firstBranches secondBranches = true) :
    sizeBranches firstBranches = sizeBranches secondBranches := by
  cases firstBranches with
  | nil =>
    cases secondBranches with
    | nil => rfl
    | cons second secondRest => simp [correspondsBranches] at same
  | cons first firstRest =>
    cases secondBranches with
    | nil => simp [correspondsBranches] at same
    | cons second secondRest =>
      rw [correspondsBranches, Bool.and_eq_true] at same
      rw [sizeBranches, sizeBranches, size_of_corresponds same.1,
        size_of_corresponding_branches same.2]

end

end Tree

namespace Place

/-- Two places correspond if they stand at the same index below places that correspond, or at the
tops of their trees, and their labels go together. -/
inductive Corresponds (tops goes : α → β → Bool) : Place α → Place β → Prop where
  | top {first : Tree α} {second : Tree β} (labels : tops first.label second.label = true) :
      Corresponds tops goes ⟨first, []⟩ ⟨second, []⟩
  | child {first : Tree α} {second : Tree β} {firstUp : Step α} {secondUp : Step β}
      {firstFurther : List (Step α)} {secondFurther : List (Step β)}
      (above : Corresponds tops goes ⟨firstUp.tree, firstFurther⟩ ⟨secondUp.tree, secondFurther⟩)
      (index : firstUp.index = secondUp.index) (labels : goes first.label second.label = true) :
      Corresponds tops goes ⟨first, firstUp :: firstFurther⟩ ⟨second, secondUp :: secondFurther⟩

/-- Two lists that are related are so as lists of their own members. -/
theorem related_listed {Related : α → β → Prop} {members : List α} {others : List β}
    (related : List.Forall₂ Related members others) :
    List.Forall₂ (fun member other => member ∈ members ∧ other ∈ others ∧ Related member other)
      members others := by
  obtain ⟨length, zipped⟩ := List.forall₂_iff_zip.mp related
  exact List.forall₂_iff_zip.mpr ⟨length, fun {_ _} member =>
    ⟨(List.of_mem_zip member).1, (List.of_mem_zip member).2, zipped member⟩⟩

variable {tops goes : α → β → Bool}

/-- Corresponding places stand at the same path. -/
theorem Corresponds.path {first : Place α} {second : Place β}
    (corresponds : Corresponds tops goes first second) : first.path = second.path := by
  induction corresponds with
  | top => rfl
  | @child first second firstUp secondUp firstFurther secondFurther _ index _ inductionHypothesis =>
    simp only [Place.path] at inductionHypothesis
    simp only [Place.path, List.map_cons, List.reverse_cons, inductionHypothesis, index]

mutual

/-- If two places correspond and their branches do, so do the places from them downwards. -/
theorem preorder_from_corresponds {firstAbove : List (Step α)} {secondAbove : List (Step β)}
    {first : Tree α} {second : Tree β}
    (here : Corresponds tops goes ⟨first, firstAbove⟩ ⟨second, secondAbove⟩)
    (branches : Tree.correspondsBranches goes first.branches second.branches = true) :
    List.Forall₂ (Corresponds tops goes) (preorderFrom firstAbove first)
      (preorderFrom secondAbove second) := by
  cases first with
  | node firstLabel firstBranches =>
    cases second with
    | node secondLabel secondBranches =>
      exact .cons here (preorder_branches_corresponds here 0 branches)

/-- The same for the places of the branches below two places that correspond. -/
theorem preorder_branches_corresponds {firstAbove : List (Step α)} {secondAbove : List (Step β)}
    {firstParent : Tree α} {secondParent : Tree β}
    (here : Corresponds tops goes ⟨firstParent, firstAbove⟩ ⟨secondParent, secondAbove⟩)
    (index : Nat) {firstBranches : List (String × Tree α)} {secondBranches : List (String × Tree β)}
    (branches : Tree.correspondsBranches goes firstBranches secondBranches = true) :
    List.Forall₂ (Corresponds tops goes)
      (preorderBranches firstParent firstAbove index firstBranches)
      (preorderBranches secondParent secondAbove index secondBranches) := by
  cases firstBranches with
  | nil =>
    cases secondBranches with
    | nil => exact .nil
    | cons second secondRest => simp [Tree.correspondsBranches] at branches
  | cons first firstRest =>
    cases secondBranches with
    | nil => simp [Tree.correspondsBranches] at branches
    | cons second secondRest =>
      simp only [Tree.correspondsBranches, Bool.and_eq_true, Tree.corresponds_iff] at branches
      obtain ⟨⟨labels, below⟩, rest⟩ := branches
      exact List.rel_append
        (preorder_from_corresponds (.child here rfl labels) below)
        (preorder_branches_corresponds here (index + 1) rest)

end

mutual

/-- The places from two that correspond downwards correspond in post-order as well. -/
theorem postorder_from_corresponds {firstAbove : List (Step α)} {secondAbove : List (Step β)}
    {first : Tree α} {second : Tree β}
    (here : Corresponds tops goes ⟨first, firstAbove⟩ ⟨second, secondAbove⟩)
    (branches : Tree.correspondsBranches goes first.branches second.branches = true) :
    List.Forall₂ (Corresponds tops goes) (postorderFrom firstAbove first)
      (postorderFrom secondAbove second) := by
  cases first with
  | node firstLabel firstBranches =>
    cases second with
    | node secondLabel secondBranches =>
      exact List.rel_append (postorder_branches_corresponds here 0 branches) (.cons here .nil)

/-- The same for the places of the branches below two places that correspond. -/
theorem postorder_branches_corresponds {firstAbove : List (Step α)} {secondAbove : List (Step β)}
    {firstParent : Tree α} {secondParent : Tree β}
    (here : Corresponds tops goes ⟨firstParent, firstAbove⟩ ⟨secondParent, secondAbove⟩)
    (index : Nat) {firstBranches : List (String × Tree α)} {secondBranches : List (String × Tree β)}
    (branches : Tree.correspondsBranches goes firstBranches secondBranches = true) :
    List.Forall₂ (Corresponds tops goes)
      (postorderBranches firstParent firstAbove index firstBranches)
      (postorderBranches secondParent secondAbove index secondBranches) := by
  cases firstBranches with
  | nil =>
    cases secondBranches with
    | nil => exact .nil
    | cons second secondRest => simp [Tree.correspondsBranches] at branches
  | cons first firstRest =>
    cases secondBranches with
    | nil => simp [Tree.correspondsBranches] at branches
    | cons second secondRest =>
      simp only [Tree.correspondsBranches, Bool.and_eq_true, Tree.corresponds_iff] at branches
      obtain ⟨⟨labels, below⟩, rest⟩ := branches
      exact List.rel_append
        (postorder_from_corresponds (.child here rfl labels) below)
        (postorder_branches_corresponds here (index + 1) rest)

end

end Place

end TreeDelta
