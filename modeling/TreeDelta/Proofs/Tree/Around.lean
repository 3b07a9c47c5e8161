import TreeDelta.Proofs.Tree.Preorder

/-!
# What comes behind a place

In the pre-order of a tree a place comes first among the places below it, and its children follow
with all that is below them, one after the other. Seen from a place, the tree falls into three
parts: what comes before it, the place with all that is below it, and what comes behind, which are
the later siblings of the place and of the places above it, nearest first.
-/

namespace TreeDelta.Place

variable {α : Type}

/-- The places of the children of the same parent that come behind a place, in order. -/
def laterSiblings (place : Place α) : List (Place α) :=
  match place.parent?, place.index? with
  | some parent, some index => parent.children.drop (index + 1)
  | _, _ => []

/-- The places behind a place that has the given steps above it and all that is below it, in
pre-order. -/
def behindFrom : List (Step α) → List (Place α)
  | [] => []
  | step :: further =>
    ((children ⟨step.tree, further⟩).drop (step.index + 1)).flatMap preorder ++ behindFrom further

/-- The places that come behind a place and all that is below it, in pre-order. -/
def behind (place : Place α) : List (Place α) := behindFrom place.above

/-- The top of a tree has no siblings. -/
@[simp] theorem later_siblings_top (tree : Tree α) : (Place.mk tree []).laterSiblings = [] := rfl

/-- The later siblings of a place are the later children of its parent. -/
@[simp] theorem later_siblings_below (tree : Tree α) (step : Step α) (further : List (Step α)) :
    (Place.mk tree (step :: further)).laterSiblings =
      (children ⟨step.tree, further⟩).drop (step.index + 1) := rfl

/-- Behind a place come its later siblings, with all that is below them, and what comes behind its
parent. -/
theorem behind_below (tree : Tree α) (step : Step α) (further : List (Step α)) :
    (Place.mk tree (step :: further)).behind =
      (Place.mk tree (step :: further)).laterSiblings.flatMap preorder ++
        (Place.mk step.tree further).behind := rfl

/-- The places of a list of branches are those of the children that they lead to. -/
theorem preorder_branches_eq (parent : Tree α) (above : List (Step α)) (index : Nat)
    (branches : List (String × Tree α)) :
    preorderBranches parent above index branches =
      ((branches.map Prod.snd).mapIdx fun offset child =>
        down ⟨parent, above⟩ (index + offset) child).flatMap preorder := by
  induction branches generalizing index with
  | nil => rfl
  | cons branch rest inductionHypothesis =>
    rw [preorderBranches, inductionHypothesis, List.map_cons, List.mapIdx_cons, List.flatMap_cons]
    simp only [Nat.add_assoc, Nat.add_comm 1]
    rfl

/-- In pre-order the children follow a place, each with all that is below it. -/
theorem preorder_children (place : Place α) :
    place.preorder = place :: place.children.flatMap preorder := by
  obtain ⟨⟨label, branches⟩, above⟩ := place
  have below := preorder_branches_eq (.node label branches) above 0 branches
  simp only [Nat.zero_add] at below
  rw [preorder, preorderFrom, below]
  rfl

/-- A child stands among the children of its parent at its index. -/
theorem children_split {tree : Tree α} {index : Nat} {child : Tree α} (above : List (Step α))
    (branch : tree.children[index]? = some child) :
    (Place.mk tree above).children =
      (Place.mk tree above).children.take index ++ (Place.mk tree above).down index child ::
        (Place.mk tree above).children.drop (index + 1) := by
  have inside : index < tree.children.length := (List.getElem?_eq_some_iff.mp branch).1
  have found : (Place.mk tree above).children[index]? =
      some ((Place.mk tree above).down index child) := by
    simp [children, branch]
  obtain ⟨bound, here⟩ := List.getElem?_eq_some_iff.mp found
  rw [← here, List.getElem_cons_drop, List.take_append_drop]

/-- The pre-order of a tree is what comes before a place, the place and all that is below it, and
what comes behind. -/
theorem preorder_around {whole : Tree α} {place : Place α}
    (listed : place ∈ (top whole).preorder) :
    ∃ before, (top whole).preorder = before ++ place.preorder ++ place.behind := by
  have reached := (mem_preorder_iff _ _).mp listed
  clear listed
  induction reached with
  | here => exact ⟨[], by simp [behind, behindFrom, top]⟩
  | @down place index child _ branch inductionHypothesis =>
    obtain ⟨before, split⟩ := inductionHypothesis
    obtain ⟨tree, above⟩ := place
    refine ⟨before ++ ⟨tree, above⟩ ::
      ((Place.mk tree above).children.take index).flatMap preorder, ?_⟩
    have around := congrArg (List.flatMap preorder) (children_split above branch)
    rw [List.flatMap_append, List.flatMap_cons] at around
    rw [split, preorder_children ⟨tree, above⟩, around, down, behind_below]
    simp only [later_siblings_below, List.append_assoc, List.cons_append]

end TreeDelta.Place
