import TreeDelta.Tree.Basic

/-!
# Places in a tree

A place is a subtree together with the way back up: the trees above it, nearest first, each with
the index of the branch that leads down. A place without anything above it stands at the top.

Everything that can be said of a node in its surroundings is a function of its place: its parent,
its index and key among its siblings, its depth, and its path, the list of indices that leads down
from the top. Two places of one tree are the same exactly when their paths are, so the path serves
as the name of a node within a tree.
-/

namespace TreeDelta

/-- One step up: the tree above and the index of the branch that leads down from it. -/
structure Step (α : Type) where
  tree : Tree α
  index : Nat
  deriving Inhabited

/-- A subtree in its surroundings. -/
structure Place (α : Type) where
  tree : Tree α
  above : List (Step α)
  deriving Inhabited

/-- The indices that lead from the top of a tree down to a place. -/
abbrev Path := List Nat

namespace Place

variable {α β : Type}

/-- The place at the top of a tree. -/
def top (tree : Tree α) : Place α := ⟨tree, []⟩

/-- The label at a place. -/
def label (place : Place α) : α := place.tree.label

/-- The place above, absent at the top. -/
def parent? (place : Place α) : Option (Place α) :=
  match place.above with
  | [] => none
  | step :: further => some ⟨step.tree, further⟩

/-- The position among the siblings, absent at the top. -/
def index? (place : Place α) : Option Nat := place.above.head?.map Step.index

/-- The key of the branch that leads to a place, absent at the top. -/
def relation? (place : Place α) : Option String :=
  place.above.head?.bind fun step => step.tree.relations[step.index]?

/-- The number of places above. -/
def depth (place : Place α) : Nat := place.above.length

/-- The indices that lead from the top down to a place. -/
def path (place : Place α) : Path := (place.above.map Step.index).reverse

/-- The place of one branch. -/
def down (place : Place α) (index : Nat) (child : Tree α) : Place α :=
  ⟨child, ⟨place.tree, index⟩ :: place.above⟩

/-- The places of the branches, in order. -/
def children (place : Place α) : List (Place α) :=
  place.tree.children.mapIdx place.down

/-- The place of the branch at `index`, if there is one. -/
def child? (place : Place α) (index : Nat) : Option (Place α) :=
  place.tree.children[index]?.map (place.down index)

/-- Follow a path downwards, as long as its indices exist. -/
def follow? (place : Place α) (path : Path) : Option (Place α) :=
  path.foldlM child? place

/-- A place and the places above it, given the steps up. -/
def ancestorsFrom (tree : Tree α) : List (Step α) → List (Place α)
  | [] => [⟨tree, []⟩]
  | step :: further => ⟨tree, step :: further⟩ :: ancestorsFrom step.tree further

/-- A place and the places above it, nearest first. -/
def ancestors (place : Place α) : List (Place α) := ancestorsFrom place.tree place.above

mutual

/-- The places of a subtree that stands below `above`, each before those of its branches. -/
def preorderFrom (above : List (Step α)) : Tree α → List (Place α)
  | .node label branches =>
    ⟨.node label branches, above⟩
      :: preorderBranches (.node label branches) above 0 branches

/-- The places of the branches of `parent` from `index` on. -/
def preorderBranches (parent : Tree α) (above : List (Step α)) (index : Nat) :
    List (String × Tree α) → List (Place α)
  | [] => []
  | (_, child) :: rest =>
    preorderFrom (⟨parent, index⟩ :: above) child
      ++ preorderBranches parent above (index + 1) rest

end

mutual

/-- The places of a subtree that stands below `above`, each after those of its branches. -/
def postorderFrom (above : List (Step α)) : Tree α → List (Place α)
  | .node label branches =>
    postorderBranches (.node label branches) above 0 branches
      ++ [⟨.node label branches, above⟩]

/-- The places of the branches of `parent` from `index` on. -/
def postorderBranches (parent : Tree α) (above : List (Step α)) (index : Nat) :
    List (String × Tree α) → List (Place α)
  | [] => []
  | (_, child) :: rest =>
    postorderFrom (⟨parent, index⟩ :: above) child
      ++ postorderBranches parent above (index + 1) rest

end

/-- The places from here downwards, each before those of its branches. -/
def preorder (place : Place α) : List (Place α) := preorderFrom place.above place.tree

/-- The places from here downwards, each after those of its branches. -/
def postorder (place : Place α) : List (Place α) := postorderFrom place.above place.tree

/-- Relabel a place and everything around it. -/
def map (f : α → β) (place : Place α) : Place β :=
  ⟨place.tree.map f, place.above.map fun step => ⟨step.tree.map f, step.index⟩⟩

end Place

/-- The text of a path: its indices with points between them. -/
def Path.text (path : Path) : String := ".".intercalate (path.map toString)

end TreeDelta
