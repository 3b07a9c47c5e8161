import TreeDelta.Slot

/-!
# Edits

An edit script says what separates a left tree from a right one: nodes of the right tree that have
no slot in the left one are insertions, nodes of the left tree that have no slot in the right one
are deletions, and a node that keeps its id but changes its slot is a move.

Two edits are the same when they are of one kind and their slots are the same.
-/

namespace TreeDelta

/-- One step of an edit script. -/
inductive Edit where
  /-- A node of the right tree at a slot that the left tree lacks. -/
  | insertion (slot : Slot)
  /-- A node of the left tree at a slot that the right tree lacks. -/
  | deletion (slot : Slot)
  /-- A node that leaves a slot of the left tree for one of the right tree. -/
  | move (old new : Slot)
  deriving Inhabited

namespace Edit

/-- Whether two edits are of one kind and have the same slots. -/
def same : Edit → Edit → Bool
  | insertion first, insertion second => first == second
  | deletion first, deletion second => first == second
  | move firstOld firstNew, move secondOld secondNew =>
    firstOld == secondOld && firstNew == secondNew
  | _, _ => false

instance : BEq Edit := ⟨same⟩

/-- The letter of an edit. -/
def tag : Edit → Char
  | insertion _ => 'I'
  | deletion _ => 'D'
  | move _ _ => 'M'

/-- The slots of an edit. -/
def slots : Edit → List Slot
  | insertion slot => [slot]
  | deletion slot => [slot]
  | move old new => [old, new]

/-- The text of an edit: its letter and the addresses of its slots. -/
def text (edit : Edit) : String :=
  String.ofList [edit.tag, ':', ' ']
    ++ " -> ".intercalate (edit.slots.map fun slot => slot.address.text)

/-- An edit as a value of the exchange text. -/
def toValue : Edit → Json.Value
  | insertion slot => .object [("edit", .string "insertion"), ("at", slot.address.toValue)]
  | deletion slot => .object [("edit", .string "deletion"), ("at", slot.address.toValue)]
  | move old new =>
    .object [("edit", .string "move"), ("from", old.address.toValue), ("to", new.address.toValue)]

end Edit

/-- The text of an edit script. -/
def scriptText (edits : List Edit) : String :=
  "[" ++ ", ".intercalate (edits.map Edit.text) ++ "]"

end TreeDelta
