import TreeDelta.Node

/-!
# Comparison of trees

Two trees are compared node by node: corresponding nodes must agree and have the same number of
children in the same order. On request ids must be equal too, or the keys of corresponding branches.
Ends are never compared.

A fingerprint lists what the plain comparison looks at in the order in which it looks: kind, value,
number of children, and then the children. Equal trees have equal fingerprints, and since the
number of children stands before them the fingerprint can be read back, so different trees have
different fingerprints.
-/

namespace TreeDelta.Tree

/-- One entry of a fingerprint. -/
inductive Trace where
  | kind (kind : String)
  | value (value? : Option String)
  | childCount (count : Nat)
  deriving DecidableEq, Repr, Inhabited

mutual

/-- Whether two trees agree node by node. With `ids` the ids are compared too, with `relations` the
keys of the branches. -/
def agrees (ids relations : Bool) : SyntaxTree → SyntaxTree → Bool
  | .node first firstBranches, .node second secondBranches =>
    first.agrees ids second && agreesBranches ids relations firstBranches secondBranches

/-- Whether two lists of branches agree, branch by branch. -/
def agreesBranches (ids relations : Bool) :
    List (String × SyntaxTree) → List (String × SyntaxTree) → Bool
  | [], [] => true
  | (firstKey, first) :: firstRest, (secondKey, second) :: secondRest =>
    (!relations || firstKey = secondKey) && agrees ids relations first second
      && agreesBranches ids relations firstRest secondRest
  | _, _ => false

end

mutual

/-- What the plain comparison looks at, in order. -/
def fingerprint : SyntaxTree → List Trace
  | .node top branches =>
    .kind top.kind :: .value top.value? :: .childCount branches.length
      :: fingerprintBranches branches

/-- The fingerprints of a list of branches, one after the other. -/
def fingerprintBranches : List (String × SyntaxTree) → List Trace
  | [] => []
  | (_, child) :: rest => fingerprint child ++ fingerprintBranches rest

end

end TreeDelta.Tree
