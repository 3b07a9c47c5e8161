import TreeDelta.Node

/-!
# Documents

A document holds the trees that are being edited. One of its nodes is designated as the root; what
does not hang below the root, such as a node that has just been made or one that has been taken out,
stays in the document as a tree of its own and can be put back. Every node has a handle, a number
that is never given to another node of the document, so a node can be named while it moves.

Parents, siblings and paths are not stored but read off the trees. A node can therefore have one
parent only, and it cannot stand below itself. What the trees alone do not ensure is that handles
are different, that a new handle is new, that the root exists, and that the branches of one node
have different keys; a document is well formed when all this is so.
-/

namespace TreeDelta

/-- The name of a node in a document. -/
abbrev Handle := Nat

/-- A node with its handle. -/
structure Entry where
  handle : Handle
  node : Node
  deriving DecidableEq, Repr, Inhabited

/-- Trees under edit, with a designated root and the next handle to be given. -/
structure Document where
  root : Handle
  trees : List (Tree Entry)
  next : Handle
  deriving Inhabited

namespace Document

mutual

/-- Give handles to the nodes of a tree in pre-order, from `next` on. -/
def withHandles (next : Handle) : SyntaxTree → Tree Entry
  | .node top branches => .node ⟨next, top⟩ (branchesWithHandles (next + 1) branches)

/-- Give handles to the nodes of a list of branches, from `next` on. -/
def branchesWithHandles (next : Handle) :
    List (String × SyntaxTree) → List (String × Tree Entry)
  | [] => []
  | (relation, child) :: rest =>
    (relation, withHandles next child) :: branchesWithHandles (next + child.size) rest

end

/-- The document of one tree, whose top is the root. -/
def ofTree (tree : SyntaxTree) : Document := ⟨0, [withHandles 0 tree], tree.size⟩

/-- The document of one node. -/
def ofNode (node : Node) : Document := ofTree (.leaf node)

/-- The places of all nodes, tree after tree in pre-order. -/
def places (document : Document) : List (Place Entry) :=
  document.trees.flatMap fun tree => (Place.top tree).preorder

/-- The handles of all nodes, tree after tree in pre-order. -/
def handles (document : Document) : List Handle :=
  document.trees.flatMap fun tree => tree.preorder.map Entry.handle

/-- The place of a node. -/
def place? (document : Document) (handle : Handle) : Option (Place Entry) :=
  document.places.find? fun place => place.label.handle = handle

/-- Whether a node belongs to the document. -/
def has (document : Document) (handle : Handle) : Bool := (document.place? handle).isSome

/-- The place of a node without handles. -/
def syntaxPlace? (document : Document) (handle : Handle) : Option (Place Node) :=
  (document.place? handle).map (Place.map Entry.node)

/-- The tree below a node without handles. -/
def tree? (document : Document) (handle : Handle) : Option SyntaxTree :=
  (document.place? handle).map fun place => place.tree.map Entry.node

/-- What a node carries. -/
def node? (document : Document) (handle : Handle) : Option Node :=
  (document.place? handle).map fun place => place.label.node

/-- The node above a node. -/
def parent? (document : Document) (handle : Handle) : Option Handle :=
  ((document.place? handle).bind Place.parent?).map fun place => place.label.handle

/-- The position of a node among its siblings. -/
def index? (document : Document) (handle : Handle) : Option Nat :=
  (document.place? handle).bind Place.index?

/-- The key of the branch that leads to a node. -/
def relation? (document : Document) (handle : Handle) : Option String :=
  (document.place? handle).bind Place.relation?

/-- The nodes below a node, in order. -/
def children (document : Document) (handle : Handle) : List Handle :=
  match document.place? handle with
  | some place => place.tree.children.map fun child => child.label.handle
  | none => []

/-- The keys of the branches of a node, in order. -/
def relations (document : Document) (handle : Handle) : List String :=
  match document.place? handle with
  | some place => place.tree.relations
  | none => []

/-- The number of nodes directly below a node. -/
def childCount (document : Document) (handle : Handle) : Nat := (document.children handle).length

/-- The node below a node at an index. -/
def child? (document : Document) (handle : Handle) (index : Nat) : Option Handle :=
  (document.children handle)[index]?

/-- The node below a node that the branch with a key leads to. -/
def childByRelation? (document : Document) (handle : Handle) (relation : String) :
    Option Handle :=
  ((document.relations handle).zip (document.children handle)).lookup relation

/-- A node and the nodes above it, nearest first. -/
def ancestors (document : Document) (handle : Handle) : List Handle :=
  match document.place? handle with
  | some place => place.ancestors.map fun above => above.label.handle
  | none => []

/-- Whether a node is another one or stands above it. -/
def isAncestorOrSelf (document : Document) (ancestor handle : Handle) : Bool :=
  (document.ancestors handle).contains ancestor

/-- The nodes from a node downwards, each before those below it. -/
def descendants (document : Document) (handle : Handle) : List Handle :=
  match document.place? handle with
  | some place => place.tree.preorder.map Entry.handle
  | none => []

/-- The number of nodes from the root downwards. -/
def size (document : Document) : Nat := (document.descendants document.root).length

/-- The first node from the root downwards that carries an id. -/
def findById? (document : Document) (id : String) : Option Handle :=
  (document.place? document.root).bind fun root =>
    (root.tree.preorder.find? fun entry => entry.node.id? = some id).map Entry.handle

/-- The node at the end of a path from the root. -/
def nodeAt? (document : Document) (path : Path) : Option Handle :=
  (document.place? document.root).bind fun root =>
    (root.follow? path).map fun place => place.label.handle

/-- Whether the branches of every node of a tree have different keys. -/
def DistinctKeys (tree : Tree Entry) : Prop :=
  ∀ place ∈ (Place.top tree).preorder, place.tree.relations.Nodup

/-- What holds of every document that is made by reading a tree and by the operations on it. -/
structure WellFormed (document : Document) : Prop where
  handlesDiffer : document.handles.Nodup
  handlesGiven : ∀ handle ∈ document.handles, handle < document.next
  rootExists : document.root ∈ document.handles
  keysDiffer : ∀ tree ∈ document.trees, DistinctKeys tree

end Document

end TreeDelta
