import TreeDelta.Json.Value
import TreeDelta.Node
import TreeDelta.Pairing

/-!
# Addresses of nodes

An address says where a node is without pointing at it. A node with an id is addressed by its id.
Any other node is addressed by its parent's address, its index among the children, and its kind and
value. The top of a tree that has no id is the address from which all others start.

Addresses from different trees can be compared. To make them agree where the trees do, a node of one
tree is addressed through its counterpart in another: the counterpart's own address stands for it,
and a node without counterpart is addressed by position below its parent's address.

Finding the node of an address walks down again and is strict: a step by position must agree in kind
and value, not only in the index.
-/

namespace TreeDelta

/-- Where a node is: at the top, at the first node with an id, or at an index below another
address. -/
inductive Address where
  | top
  | named (id : String)
  | child (index : Nat) (kind : String) (value? : Option String) (parent : Address)
  deriving DecidableEq, Repr, Inhabited

/-- Two places are compared by their paths, which tell the places of one tree apart. -/
instance {α : Type} : BEq (Place α) := ⟨fun first second => first.path == second.path⟩

/-- A pairing of the places of two trees. -/
abbrev Correspondence := Pairing (Place Node) (Place Node)

namespace Address

/-- The address by position below a parent's address. -/
def step (node : Node) (index : Nat) (parent : Address) : Address :=
  .child index node.kind node.value? parent

/-- The address of a tree, given the steps up from it. -/
def ofSteps (tree : SyntaxTree) (above : List (Step Node)) : Address :=
  match tree.label.id?, above with
  | some id, _ => .named id
  | none, [] => .top
  | none, up :: further => step tree.label up.index (ofSteps up.tree further)

/-- The address of a place in its own tree. -/
def ofPlace (place : Place Node) : Address := ofSteps place.tree place.above

/-- The address of a tree through its counterpart, given the steps up from it. -/
def throughSteps (mapping : Correspondence) (tree : SyntaxTree) (above : List (Step Node)) :
    Address :=
  match mapping.left? ⟨tree, above⟩, above with
  | some counterpart, _ => ofPlace counterpart
  | none, [] => .top
  | none, up :: further => step tree.label up.index (throughSteps mapping up.tree further)

/-- The address of a place of the right tree in terms of the left one, as far as it has
counterparts there. -/
def through (mapping : Correspondence) (place : Place Node) : Address :=
  throughSteps mapping place.tree place.above

/-- The first place below `root`, in pre-order, whose node has the given id. -/
def findById? (root : Place Node) (id : String) : Option (Place Node) :=
  root.preorder.find? fun place => place.label.id? = some id

/-- The place of an address in the tree below `root`. -/
def resolve? (root : Place Node) : Address → Option (Place Node)
  | .top => some root
  | .named id => findById? root id
  | .child index kind value? parent => do
    let above ← resolve? root parent
    let place ← above.child? index
    if place.label.kind = kind ∧ place.label.value? = value? then some place else none

/-- An index with at least two digits. -/
def indexText (index : Nat) : String :=
  if index < 10 then "0" ++ toString index else toString index

/-- The text of an address. -/
def text : Address → String
  | .top => "root"
  | .named id => "\x7b" ++ id ++ "\x7d"
  | .child index kind _ parent =>
    parent.text ++ "->\x7b" ++ kind ++ "#" ++ indexText index ++ "\x7d"

/-- An address as a value of the exchange text. A value that is absent has no field. -/
def toValue : Address → Json.Value
  | .top => .null
  | .named id => .object [("ref", .string "id"), ("id", .string id)]
  | .child index kind value? parent =>
    .object ([("ref", .string "child"), ("parent", parent.toValue), ("index", .natural index),
      ("type", .string kind)] ++
      match value? with
      | none => []
      | some value => [("value", .string value)])

end Address

end TreeDelta
