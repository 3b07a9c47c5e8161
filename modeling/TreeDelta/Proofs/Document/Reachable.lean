import TreeDelta.Proofs.Document.Operations
import TreeDelta.Proofs.Exchange.DecodedKeys

/-!
# Documents that can be reached

A document begins as one node, as a tree that has been read, or as a copy of what hangs below a node
of another document. From then on operations change it, and trees of other documents are imported.
Whatever is reached in this way is well formed, also when operations have stopped with a fault, and
a well-formed document is consistent: it gives the same answer from above and from below.
-/

namespace TreeDelta.Document

open Editing

/-- An operation on the nodes of one document, with all that it is given. -/
inductive Operation where
  | newNode (node : Node)
  | shallowCopy (handle : Handle)
  | appendNew (parent : Handle) (relation? : Option String) (node : Node)
  | addChild (parent : Handle) (relation? : Option String) (child : Handle)
  | addChildAt (parent : Handle) (index : Nat) (relation? : Option String) (child : Handle)
  | removeChild (parent : Handle) (index : Nat)
  | clearChildren (parent : Handle)
  | replaceWith (node other : Handle)
  | fillIds (stem : String)
  | setNode (handle : Handle) (change : Node → Node)

/-- What an operation does, whatever it results in. -/
def Operation.run : Operation → Editing Unit
  | newNode node => discard (Editing.newNode node)
  | shallowCopy handle => discard (Editing.shallowCopy handle)
  | appendNew parent relation? node => discard (Editing.appendNew parent relation? node)
  | addChild parent relation? child => Editing.addChild parent relation? child
  | addChildAt parent index relation? child => Editing.addChildAt parent index relation? child
  | removeChild parent index => discard (Editing.removeChild parent index)
  | clearChildren parent => Editing.clearChildren parent
  | replaceWith node other => Editing.replaceWith node other
  | fillIds stem => Editing.fillIds stem
  | setNode handle change => Editing.setNode handle change

/-- The document that an operation leaves behind, whether it succeeds or stops. -/
def left (document : Document) (operation : Operation) : Document :=
  (perform operation.run document).2

/-- A document that is made and changed in the ways there are. -/
inductive Reachable : Document → Prop where
  /-- A document of one node. -/
  | made (node : Node) : Reachable (ofNode node)
  /-- A document that has been read. -/
  | read {value : Json.Value} {tree : SyntaxTree} (decoded : Exchange.decode value = .ok tree) :
    Reachable (ofTree tree)
  /-- A copy of what hangs below a node of a document. -/
  | copied {source : Document} {handle : Handle} {tree : SyntaxTree} (reached : Reachable source)
    (taken : source.tree? handle = some tree) : Reachable (ofTree tree)
  /-- A document with a copy of what hangs below a node of another one. -/
  | imported {document source : Document} {handle : Handle} {tree : SyntaxTree}
    (reached : Reachable document) (sourceReached : Reachable source)
    (taken : source.tree? handle = some tree) :
    Reachable (perform (importTree tree) document).2
  /-- A document after an operation that has succeeded or stopped. -/
  | edited {document : Document} (reached : Reachable document) (operation : Operation) :
    Reachable (document.left operation)

/-- What the parts of a document say about each other. -/
structure Consistent (document : Document) : Prop where
  /-- A node stands once among the children of its parent and among no others. -/
  listedOnce : ∀ upper handle, (document.children upper).count handle =
    if document.parent? handle = some upper then 1 else 0
  /-- No node stands above itself. -/
  acyclic : ∀ handle, ¬ Relation.TransGen
    (fun lower upper => document.parent? lower = some upper) handle handle
  /-- The keys of the children of a node are different. -/
  keysDiffer : ∀ handle, (document.relations handle).Nodup
  /-- A node with a parent is found there by its index and by its key. -/
  slots : ∀ handle upper, document.parent? handle = some upper →
    ∃ index relation, document.index? handle = some index ∧
      document.relation? handle = some relation ∧ index < document.childCount upper ∧
      document.child? upper index = some handle ∧
      document.childByRelation? upper relation = some handle

variable {document : Document}

/-- A well-formed document is consistent. -/
theorem WellFormed.consistent (wellFormed : document.WellFormed) : document.Consistent where
  listedOnce := children_count wellFormed.handlesDiffer
  acyclic := Document.acyclic wellFormed.handlesDiffer
  keysDiffer := wellFormed.relations_nodup
  slots _ upper := slot_of_parent wellFormed.handlesDiffer (wellFormed.relations_nodup upper)

/-- A document stays well formed when a node is put into it. -/
theorem WellFormed.new_node (wellFormed : document.WellFormed) (node : Node) :
    (perform (newNode node) document).2.WellFormed := by
  rw [perform_new_node]
  exact wellFormed.imported (Tree.keys_differ_leaf node)

/-- Every operation leaves a well-formed document well formed.

There is one case for each operation. Most of them take out or put in a node, or change what it
carries, and one lemma says that this keeps the document well formed. Those on several nodes are
folds over such changes. -/
theorem WellFormed.left (wellFormed : document.WellFormed) (operation : Operation) :
    (document.left operation).WellFormed := by
  cases operation with
  | newNode node =>
    rw [Document.left, Operation.run, discard_leaves]
    exact wellFormed.new_node node
  | shallowCopy handle =>
    rw [Document.left, Operation.run, discard_leaves]
    simp only [shallowCopy, perform_bind, perform_get]
    cases document.node? handle with
    | none => exact wellFormed
    | some node => exact wellFormed.new_node node
  | appendNew parent relation? node =>
    rw [Document.left, Operation.run, discard_leaves]
    have made := wellFormed.new_node node
    simp only [appendNew, perform_bind, perform_get, perform_new_node] at made ⊢
    have added := made.add_child_at parent
      ((document.imported (.leaf node)).childCount parent) relation? document.next
    generalize perform (Editing.addChildAt parent _ relation? document.next) _ = outcome at added
    obtain ⟨fault | _, after⟩ := outcome
    · exact added
    · exact added
  | addChild parent relation? child =>
    rw [Document.left, Operation.run, perform_add_child]
    exact wellFormed.add_child_at parent _ relation? child
  | addChildAt parent index relation? child =>
    exact wellFormed.add_child_at parent index relation? child
  | removeChild parent index =>
    rw [Document.left, Operation.run, discard_leaves, perform_remove_child]
    cases document.child? parent index with
    | none => exact wellFormed
    | some child => exact wellFormed.detach child
  | clearChildren parent =>
    rw [Document.left, Operation.run, perform_clear_children]
    exact List.foldlRecOn _ Document.detach wellFormed fun _ before child _ => before.detach child
  | replaceWith node other => exact wellFormed.replace node other
  | fillIds stem =>
    rw [Document.left, Operation.run, fillIds, perform_modify]
    exact List.foldlRecOn _ _ wellFormed fun _ before numbered _ => before.updateNode numbered.1 _
  | setNode handle change => exact wellFormed.updateNode handle change

/-- Every document that can be reached is well formed. -/
theorem Reachable.well_formed (reached : Reachable document) : document.WellFormed := by
  induction reached with
  | made node => exact of_tree_well_formed (Tree.keys_differ_leaf node)
  | read decoded => exact of_tree_well_formed (Exchange.decode_keys decoded)
  | copied _ taken source => exact of_tree_well_formed (source.tree_keys taken)
  | imported _ _ taken before source =>
    rw [perform_import_tree]
    exact before.imported (source.tree_keys taken)
  | edited _ operation before => exact before.left operation

/-- In every document that can be reached, each node is a child of its parent once and of no other
node, no node stands above itself, the keys of a node's children are different, and a node with a
parent is found there by its index and by its key. -/
theorem reachable_consistent (reached : Reachable document) : document.Consistent :=
  reached.well_formed.consistent

/-- A list of two items, the second of which has been put in place of the first after it could not
become the parent of the list. -/
theorem item_replaced :
    ∃ document : Document, document.Reachable ∧ document.children 0 = [2] ∧
      document.relations 0 = ["first"] ∧ document.children 2 = [3] ∧ document.Consistent := by
  let operations : List Operation :=
    [.appendNew 0 (some "first") (Node.bare "item"), .appendNew 0 none (Node.bare "item"),
      .appendNew 1 none (Node.bare "word"), .addChild 2 none 0, .replaceWith 1 2]
  have reached : Reachable (operations.foldl left (ofNode (Node.bare "list"))) :=
    List.foldlRecOn operations left (.made _) fun _ before operation _ => before.edited operation
  exact ⟨_, reached, by decide +kernel, by decide +kernel, by decide +kernel,
    reachable_consistent reached⟩

end TreeDelta.Document
