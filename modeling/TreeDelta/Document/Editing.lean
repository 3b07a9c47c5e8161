import TreeDelta.Document.Surgery
import TreeDelta.Violation

/-!
# Editing documents

An operation either changes the document and has a result, or it stops with a fault. What it had
changed by then stays changed: an operation is trusted to leave the document alone when it stops
because it looks for reasons to refuse before it touches anything.

A node is added below another one at an index that counts the children without the added node, so
moving a node within its parent needs no second thought. It is refused when the node is its new
parent or stands above it, when another child has the key, and when the index lies beyond the last
child. Without a key the node gets a numeral: the least one, not below the number of the other
children, that none of them has.

Putting one node in place of another gives it the other's slot and children and, if the other was
the root, makes it the root.
-/

namespace TreeDelta

/-- Why an operation has stopped. -/
inductive Fault where
  /-- A rule of trees would be broken. -/
  | violation (broken : Violation)
  /-- The index lies beyond the children of the node. -/
  | indexOutOfRange (index count : Nat)
  /-- The node does not belong to the document. -/
  | unknownNode (handle : Handle)
  deriving DecidableEq, Repr, Inhabited

/-- The message of a fault. -/
def Fault.message : Fault → String
  | violation broken => broken.message
  | indexOutOfRange index count =>
    "child index " ++ toString index ++ " out of range for " ++ toString count ++ " children"
  | unknownNode handle => "unknown node " ++ toString handle

/-- An operation on a document that may stop. The document it leaves is there in either case. -/
abbrev Editing := ExceptT Fault (StateM Document)

namespace Document

/-- The number of children that a node has besides another one. -/
def otherChildren (document : Document) (parent child : Handle) : Nat :=
  ((document.children parent).filter (· ≠ child)).length

/-- The least numeral, not below the number of keys, that is none of them. One more numeral is tried
than there are keys, so one of them is free. -/
def freshRelation (relations : List String) : String :=
  let candidates := (List.range (relations.length + 1)).map fun step =>
    toString (relations.length + step)
  (candidates.find? fun candidate => candidate ∉ relations).getD ""

/-- Why a child cannot be added below a parent. -/
def addFault? (document : Document) (parent : Handle) (index : Nat) (relation? : Option String)
    (child : Handle) : Option Fault :=
  let taken := relation?.filter fun relation =>
    (document.childByRelation? parent relation).any (· ≠ child)
  let count := document.otherChildren parent child
  if !document.has parent then some (.unknownNode parent)
  else if !document.has child then some (.unknownNode child)
  else if document.isAncestorOrSelf child parent then some (.violation .wouldCycle)
  else
    match taken with
    | some relation => some (.violation (.relationInUse relation))
    | none => if count < index then some (.indexOutOfRange index count) else none

/-- Why one node cannot take the place of another. -/
def replaceFault? (document : Document) (node other : Handle) : Option Fault :=
  let taken := (document.relations node).find? fun relation =>
    (document.relations other).contains relation
  if !document.has node then some (.unknownNode node)
  else if !document.has other then some (.unknownNode other)
  else if document.isAncestorOrSelf node other || document.isAncestorOrSelf other node then
    some (.violation .wouldCycle)
  else taken.map fun relation => .violation (.relationInUse relation)

end Document

namespace Editing

open Document

/-- Stop if there is a fault. -/
def stopOn (fault? : Option Fault) : Editing Unit :=
  match fault? with
  | some fault => throw fault
  | none => pure ()

/-- Put a tree into the document, under new handles, without a parent. -/
def importTree (tree : SyntaxTree) : Editing Handle := do
  let document ← get
  set { document with
    trees := document.trees ++ [withHandles document.next tree]
    next := document.next + tree.size }
  return document.next

/-- Put a node into the document, without a parent. -/
def newNode (node : Node) : Editing Handle := importTree (.leaf node)

/-- Put a copy of a node into the document, without a parent and without its children. -/
def shallowCopy (handle : Handle) : Editing Handle := do
  match (← get).node? handle with
  | some node => newNode node
  | none => throw (.unknownNode handle)

/-- Add a child at an index, under the given key or a fresh one. -/
def addChildAt (parent : Handle) (index : Nat) (relation? : Option String) (child : Handle) :
    Editing Unit := do
  stopOn ((← get).addFault? parent index relation? child)
  modify fun document => document.detach child
  modify fun document =>
    document.attach parent index (relation?.getD (freshRelation (document.relations parent))) child

/-- Add a child behind the other children, under the given key or a fresh one. -/
def addChild (parent : Handle) (relation? : Option String) (child : Handle) : Editing Unit := do
  addChildAt parent ((← get).otherChildren parent child) relation? child

/-- Make a node and add it behind the other children. If it cannot be added, it stays without a
parent. -/
def appendNew (parent : Handle) (relation? : Option String) (node : Node) : Editing Handle := do
  let child ← newNode node
  addChildAt parent ((← get).childCount parent) relation? child
  return child

/-- Take out the child at an index. -/
def removeChild (parent : Handle) (index : Nat) : Editing Handle := do
  let document ← get
  match document.child? parent index with
  | some child =>
    set (document.detach child)
    return child
  | none => throw (.indexOutOfRange index (document.childCount parent))

/-- Take out all children of a node. -/
def clearChildren (parent : Handle) : Editing Unit :=
  modify fun document => (document.children parent).foldl Document.detach document

/-- Give the slot of a node below its parent to another node that has no parent. -/
def giveSlot (node other : Handle) : Editing Unit := do
  let document ← get
  match document.parent? node, document.index? node, document.relation? node with
  | some parent, some index, some relation =>
    discard (removeChild parent index)
    addChildAt parent index (some relation) other
  | _, _, _ => pure ()

/-- Make a node the root if another one is. -/
def switchRoot (node other : Handle) : Editing Unit :=
  modify fun document =>
    if document.root = node then { document with root := other } else document

/-- Put one node in place of another. -/
def replaceWith (node other : Handle) : Editing Unit := do
  if node = other then return ()
  stopOn ((← get).replaceFault? node other)
  modify fun document => document.detach other
  giveSlot node other
  modify fun document => document.transferBranches node other
  switchRoot node other

/-- The nodes from the root downwards that have no id. -/
def withoutId (document : Document) : List Handle :=
  (document.descendants document.root).filter fun handle =>
    ((document.node? handle).bind Node.id?).isNone

/-- Give an id to every node from the root downwards that has none: the given text and a number that
counts these nodes from zero. -/
def fillIds (stem : String) : Editing Unit :=
  modify fun document =>
    (withoutId document).zipIdx.foldl (fun document (handle, number) =>
      document.updateNode handle fun node =>
        { node with id? := some (stem ++ toString number) }) document

/-- Change what a node carries. -/
def setNode (handle : Handle) (update : Node → Node) : Editing Unit :=
  modify fun document => document.updateNode handle update

end Editing

end TreeDelta
