import TreeDelta.Correspondence
import TreeDelta.Edit

/-!
# Extracting edit scripts

Given a correspondence, the slots of both trees are listed in pre-order, each address once, at its
first place. Slots of the left tree that the right one lacks are removed, slots of the right tree
that the left one lacks are added. A removed slot whose node has an id is paired with the first
added slot whose node has the same id: the two are a move and both are used up. What is left over of
the removed slots is deleted, what is left over of the added ones is inserted.

A script lists its moves, then its deletions, then its insertions, each in pre-order of the tree
that their first slot belongs to.
-/

namespace TreeDelta

/-- A way to pair the nodes of two trees by their post-order positions. -/
abbrev Aligner := SyntaxTree → SyntaxTree → List (Nat × Nat)

namespace Extraction

/-- Keep the first slot of every address that has not been seen. -/
def firstSlots (seen : List Address) : List Slot → List Slot
  | [] => []
  | slot :: rest =>
    if slot.address ∈ seen then firstSlots seen rest
    else slot :: firstSlots (slot.address :: seen) rest

/-- The slots of the left tree, each address once. -/
def leftSlots (left : Place Node) : List Slot :=
  firstSlots [] (left.preorder.filterMap Slot.ofLeft?)

/-- The slots of the right tree, each address once. -/
def rightSlots (mapping : Correspondence) (right : Place Node) : List Slot :=
  firstSlots [] (right.preorder.filterMap (Slot.ofRight? mapping))

/-- The slots whose addresses do not occur among others. -/
def without (slots others : List Slot) : List Slot :=
  let addresses := others.map Slot.address
  slots.filter fun slot => slot.address ∉ addresses

/-- Whether the node of a slot carries the given id. -/
def carries (id : String) (slot : Slot) : Bool := slot.place.label.id? = some id

/-- The first of a list of slots whose node has the same id as the node of `slot`. -/
def match? (slot : Slot) (added : List Slot) : Option Slot :=
  slot.place.label.id?.bind fun id => added.find? (carries id)

/-- The slots that are left when the match of `slot` has been used up. -/
def unmatched (slot : Slot) (added : List Slot) : List Slot :=
  match slot.place.label.id? with
  | some id => added.eraseP (carries id)
  | none => added

/-- The parts of an edit script. -/
structure Script where
  moves : List (Slot × Slot)
  deletions : List Slot
  insertions : List Slot
  deriving Inhabited

/-- Pair removed slots with added ones, in order; the others are deletions and insertions. -/
def matchMoves : List Slot → List Slot → Script
  | [], added => ⟨[], [], added⟩
  | slot :: rest, added =>
    match match? slot added with
    | some target =>
      let script := matchMoves rest (unmatched slot added)
      { script with moves := (slot, target) :: script.moves }
    | none =>
      let script := matchMoves rest added
      { script with deletions := slot :: script.deletions }

/-- The edits of a script: moves, then deletions, then insertions. -/
def Script.edits (script : Script) : List Edit :=
  script.moves.map (fun (old, new) => Edit.move old new)
    ++ script.deletions.map Edit.deletion ++ script.insertions.map Edit.insertion

/-- The edit script of two trees for a given correspondence. -/
def withCorrespondence (left right : Place Node) (mapping : Correspondence) : List Edit :=
  let leftSlots := leftSlots left
  let rightSlots := rightSlots mapping right
  (matchMoves (without leftSlots rightSlots) (without rightSlots leftSlots)).edits

/-- The edit script of two trees whose nodes are paired by id. -/
def byId (left right : Place Node) : Except ExtractError (List Edit) :=
  (Correspondence.byId left right).map (withCorrespondence left right)

/-- The edit script of two trees whose nodes are paired by an aligner. -/
def aligned (aligner : Aligner) (left right : Place Node) : Except ExtractError (List Edit) :=
  (Correspondence.byPostorder left right (aligner left.tree right.tree)).map
    (withCorrespondence left right)

/-- The edit scripts of many pairs of trees, each extracted on its own. -/
def all (extract : Place Node → Place Node → Except ExtractError (List Edit))
    (pairs : List (Place Node × Place Node)) : List (Except ExtractError (List Edit)) :=
  pairs.map fun (left, right) => extract left right

end Extraction

end TreeDelta
