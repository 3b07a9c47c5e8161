import TreeDelta.Node

/-!
# Post-order numberings

The nodes of a tree are numbered in post-order, so the nodes of every subtree have consecutive
numbers and its top has the last of them. With each number goes the first number of its subtree,
which belongs to the leftmost leaf.

The key roots are the nodes that no later node shares its first number with: the top of the tree and
every node that has a sibling to its left. Each node shares its first number with exactly one key
root, the highest node that begins where it begins.
-/

namespace TreeDelta

/-- The nodes of a tree by number, and the first number of the subtree of each. -/
structure Numbering where
  nodes : Array Node
  firsts : Array Nat
  deriving Inhabited

namespace Numbering

mutual

/-- The nodes of a tree whose first number is `first`, in post-order, each with the first number of
its subtree. -/
def entries (first : Nat) : SyntaxTree → List (Node × Nat)
  | .node top branches => entriesOfBranches first branches ++ [(top, first)]

/-- The nodes of a list of branches whose first number is `first`. -/
def entriesOfBranches (first : Nat) : List (String × SyntaxTree) → List (Node × Nat)
  | [] => []
  | (_, child) :: rest =>
    entries first child ++ entriesOfBranches (first + child.size) rest

end

/-- The numbering of a tree, from zero on. -/
def ofTree (tree : SyntaxTree) : Numbering :=
  let numbered := entries 0 tree
  ⟨(numbered.map Prod.fst).toArray, (numbered.map Prod.snd).toArray⟩

/-- The number of nodes. -/
def size (numbering : Numbering) : Nat := numbering.nodes.size

/-- The node with a number. -/
def node (numbering : Numbering) (index : Nat) : Node :=
  numbering.nodes.getD index Node.placeholder

/-- The first number of the subtree of a node. -/
def first (numbering : Numbering) (index : Nat) : Nat := numbering.firsts.getD index 0

/-- Whether no later node begins where a node begins. -/
def isKeyRoot (numbering : Numbering) (index : Nat) : Bool :=
  (List.range numbering.size).all fun later =>
    later ≤ index || numbering.first later != numbering.first index

/-- The key roots, in ascending order. -/
def keyRoots (numbering : Numbering) : List Nat :=
  (List.range numbering.size).filter numbering.isKeyRoot

end Numbering

end TreeDelta
