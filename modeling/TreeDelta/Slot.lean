import TreeDelta.Address

/-!
# Slots

A slot is the position that a node occupies below its parent, together with the node. Its address is
always by position, even if the node has an id, so a node that has been moved has a new slot. Only
the top of a tree has no slot.

Slots are compared by their addresses. A node of the right tree whose counterpart has an id is
described by the counterpart's kind and value: a change of value on a node that keeps its id is no
change of its slot.
-/

namespace TreeDelta

/-- A position below a parent and the node that occupies it. -/
structure Slot where
  address : Address
  place : Place Node
  deriving Inhabited

/-- Slots are the same when their addresses are. -/
instance : BEq Slot := ⟨fun first second => first.address == second.address⟩

namespace Slot

/-- The slot of a place of the left tree, addressed in that tree. -/
def ofLeft? (place : Place Node) : Option Slot :=
  match place.above with
  | [] => none
  | up :: further =>
    some ⟨Address.step place.label up.index (Address.ofSteps up.tree further), place⟩

/-- The node that describes a place of the right tree: its counterpart if that has an id, the node
itself otherwise. -/
def described (mapping : Correspondence) (place : Place Node) : Node :=
  match mapping.left? place with
  | some counterpart => if counterpart.label.id?.isSome then counterpart.label else place.label
  | none => place.label

/-- The slot of a place of the right tree, addressed in terms of the left one. -/
def ofRight? (mapping : Correspondence) (place : Place Node) : Option Slot :=
  match place.above with
  | [] => none
  | up :: further =>
    some ⟨Address.step (described mapping place) up.index
      (Address.throughSteps mapping up.tree further), place⟩

end Slot

end TreeDelta
