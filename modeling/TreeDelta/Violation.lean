import TreeDelta.Text.Quoted

/-!
# Violations of the tree rules

Three rules hold of every tree: a node has a kind, the branches of one node have different keys,
and no node stands below itself. What would break one of them is refused, and the refusal names the
rule.
-/

namespace TreeDelta

/-- A rule of trees that an operation would break. -/
inductive Violation where
  /-- A node must have a kind. -/
  | emptyKind
  /-- The key `relation` belongs to another branch of the same node. -/
  | relationInUse (relation : String)
  /-- A node must not stand below itself. -/
  | wouldCycle
  deriving DecidableEq, Repr, Inhabited

/-- The message of a violation. -/
def Violation.message : Violation → String
  | .emptyKind => "node type cannot be empty"
  | .relationInUse relation =>
    "relation " ++ Text.quoted relation ++ " is already used by a child of this node"
  | .wouldCycle => "operation would make a node its own ancestor"

end TreeDelta
