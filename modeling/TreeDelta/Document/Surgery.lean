import TreeDelta.Document.Basic

/-!
# Surgery on documents

All changes of shape come down to one operation on trees: change the list of branches of one node.
A node is taken out by dropping its branch, and what hangs below it becomes a tree of its own; it is
put in by giving one of the trees to a node as a branch.
-/

namespace TreeDelta.Document

/-- A list of branches. -/
abbrev Branches := List (String × Tree Entry)

mutual

/-- Change the branches of the node with a handle, anywhere in a tree. -/
def changeBranches (handle : Handle) (change : Branches → Branches) : Tree Entry → Tree Entry
  | .node top branches =>
    let below := changeBelow handle change branches
    .node top (if top.handle = handle then change below else below)

/-- Change the branches of the node with a handle, anywhere in a list of branches. -/
def changeBelow (handle : Handle) (change : Branches → Branches) : Branches → Branches
  | [] => []
  | (relation, child) :: rest =>
    (relation, changeBranches handle change child) :: changeBelow handle change rest

end

/-- Change the branches of the node with a handle. -/
def mapBranches (document : Document) (handle : Handle) (change : Branches → Branches) :
    Document :=
  { document with trees := document.trees.map (changeBranches handle change) }

/-- A list of branches without the one that leads to a node. -/
def withoutBranch (handle : Handle) (branches : Branches) : Branches :=
  branches.filter fun branch => branch.2.label.handle ≠ handle

/-- Take a node out from below its parent. What hangs below it becomes a tree of its own. A node
without parent stays where it is. -/
def detach (document : Document) (handle : Handle) : Document :=
  match document.place? handle with
  | some ⟨tree, up :: _⟩ =>
    let remaining := document.mapBranches up.tree.label.handle (withoutBranch handle)
    { remaining with trees := remaining.trees ++ [tree] }
  | _ => document

/-- Give a node without parent to another node, as the branch at `index` with the given key. -/
def attach (document : Document) (parent : Handle) (index : Nat) (relation : String)
    (child : Handle) : Document :=
  match document.trees.find? fun tree => tree.label.handle = child with
  | some tree =>
    let remaining :=
      { document with trees := document.trees.filter fun other => other.label.handle ≠ child }
    remaining.mapBranches parent fun branches => branches.insertIdx index (relation, tree)
  | none => document

/-- The branches of a node. -/
def branches (document : Document) (handle : Handle) : Branches :=
  match document.place? handle with
  | some place => place.tree.branches
  | none => []

/-- Move all branches of a node behind those of another one. Their keys and order stay. -/
def transferBranches (document : Document) (source target : Handle) : Document :=
  let moved := document.branches source
  (document.mapBranches source fun _ => []).mapBranches target (· ++ moved)

/-- Change what a node carries. -/
def updateNode (document : Document) (handle : Handle) (update : Node → Node) : Document :=
  let change (entry : Entry) : Entry :=
    if entry.handle = handle then { entry with node := update entry.node } else entry
  { document with trees := document.trees.map (Tree.map change) }

end TreeDelta.Document
