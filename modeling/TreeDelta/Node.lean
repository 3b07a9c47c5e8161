import TreeDelta.Location
import TreeDelta.Tree.Place

/-!
# Nodes

A node carries a kind and, if it has them, a value, an id and the two ends of the stretch of text
that it stands for. A kind is never empty when a node is made by its kind. One kind is set apart:
it marks a placeholder, a child that is deliberately absent and keeps its siblings in place.

Two nodes agree when their kinds and values do. Ids are compared only on request, ends never: they
say where a node came from and not what it is.
-/

namespace TreeDelta

/-- A node of a syntax tree, without its children. -/
structure Node where
  kind : String
  value? : Option String
  id? : Option String
  start? : Option Location
  stop? : Option Location
  deriving DecidableEq, Repr, Inhabited

namespace Node

/-- The kind that marks a placeholder. -/
def placeholderKind : String := "null"

/-- A node of the given kind that carries nothing else. -/
def bare (kind : String) : Node := ⟨kind, none, none, none, none⟩

/-- A node of the given kind, unless the kind is empty. -/
def ofKind? (kind : String) : Option Node :=
  if kind = "" then none else some (bare kind)

/-- The placeholder for an absent child. -/
def placeholder : Node := bare placeholderKind

/-- Whether a node marks an absent child, whatever else it carries. -/
def isPlaceholder (node : Node) : Bool := node.kind = placeholderKind

/-- Whether two nodes have the same kind and value and, if `ids` is set, the same id. -/
def agrees (ids : Bool) (first second : Node) : Bool :=
  first.kind = second.kind && first.value? = second.value? && (!ids || first.id? = second.id?)

/-- Nodes agree, apart from their ids, if they have the same kind and value. -/
theorem agrees_iff (first second : Node) :
    first.agrees false second = true ↔
      second.kind = first.kind ∧ second.value? = first.value? := by
  simp only [Node.agrees, Bool.not_false, Bool.true_or, Bool.and_true, Bool.and_eq_true,
    decide_eq_true_eq]
  exact ⟨fun ⟨kind, value⟩ => ⟨kind.symm, value.symm⟩, fun ⟨kind, value⟩ => ⟨kind.symm, value.symm⟩⟩

/-- A node agrees with itself. -/
@[simp] theorem agrees_self (node : Node) : node.agrees false node = true :=
  (node.agrees_iff node).mpr ⟨rfl, rfl⟩

end Node

/-- A tree of nodes: the syntax tree of a program. -/
abbrev SyntaxTree := Tree Node

end TreeDelta
