import TreeDelta.Proofs.Document.Numbered

/-!
# Performing operations

Performing an operation gives its result and the document that it leaves behind, whether it succeeds
or stops. An operation that is made of steps is performed step by step, each on the document that
the step before has left; a step that stops is the last one. With this every operation becomes a
function of documents.
-/

namespace TreeDelta

namespace Editing

open Document

variable {α β : Type}

/-- The result of an operation and the document that it leaves behind. -/
def perform (operation : Editing α) (document : Document) : Except Fault α × Document :=
  operation.run.run document

/-- Giving a value leaves the document as it is. -/
@[simp] theorem perform_pure (value : α) (document : Document) :
    perform (pure value) document = (.ok value, document) := rfl

/-- Stopping with a fault leaves the document as it is. -/
@[simp] theorem perform_throw (fault : Fault) (document : Document) :
    perform (throw fault : Editing α) document = (.error fault, document) := rfl

/-- Reading gives the document and leaves it as it is. -/
@[simp] theorem perform_get (document : Document) :
    perform get document = (.ok document, document) := rfl

/-- Setting leaves the document that is set. -/
@[simp] theorem perform_set (changed document : Document) :
    perform (set changed) document = (.ok ⟨⟩, changed) := rfl

/-- A change leaves the changed document. -/
@[simp] theorem perform_modify (change : Document → Document) (document : Document) :
    perform (modify change) document = (.ok ⟨⟩, change document) := rfl

/-- After an operation that succeeds the next one begins where it has ended. -/
@[simp] theorem perform_bind (first : Editing α) (next : α → Editing β) (document : Document) :
    perform (first >>= next) document =
      match perform first document with
      | (.ok value, left) => perform (next value) left
      | (.error fault, left) => (.error fault, left) := by
  simp only [perform, ExceptT.run_bind, StateT.run_bind]
  rcases first.run.run document with ⟨fault | value, left⟩ <;> rfl

/-- A function of the result leaves the document alone. -/
@[simp] theorem perform_map (change : α → β) (operation : Editing α) (document : Document) :
    perform (change <$> operation) document =
      match perform operation document with
      | (.ok value, left) => (.ok (change value), left)
      | (.error fault, left) => (.error fault, left) := by
  simp only [perform, ExceptT.run_map, StateT.run_map]
  rcases operation.run.run document with ⟨fault | value, left⟩ <;> rfl

/-- Without its value an operation leaves the same document and stops with the same faults. -/
@[simp] theorem perform_discard (operation : Editing α) (document : Document) :
    perform (discard operation) document =
      match perform operation document with
      | (.ok _, left) => (.ok ⟨⟩, left)
      | (.error fault, left) => (.error fault, left) :=
  perform_map _ operation document

/-- What an operation leaves behind does not depend on whether its result is used. -/
theorem discard_leaves (operation : Editing α) (document : Document) :
    (perform (discard operation) document).2 = (perform operation document).2 := by
  rw [perform_discard]
  rcases perform operation document with ⟨fault | value, left⟩ <;> rfl

/-- Stopping on a fault. -/
@[simp] theorem perform_stop_on (fault? : Option Fault) (document : Document) :
    perform (stopOn fault?) document =
      match fault? with
      | some fault => (.error fault, document)
      | none => (.ok ⟨⟩, document) := by
  cases fault? <;> rfl

/-- A node is added where nothing speaks against it: it is taken out from where it is, and the key
is chosen when that has been done. -/
theorem perform_add_child_at (parent : Handle) (index : Nat) (relation? : Option String)
    (child : Handle) (document : Document) :
    perform (addChildAt parent index relation? child) document =
      match document.addFault? parent index relation? child with
      | some fault => (.error fault, document)
      | none =>
        let detached := document.detach child
        (.ok ⟨⟩, detached.attach parent index
          (relation?.getD (freshRelation (detached.relations parent))) child) := by
  simp only [addChildAt, perform_bind, perform_get, perform_stop_on]
  cases document.addFault? parent index relation? child <;> rfl

/-- A node is added behind the other children by its index. -/
theorem perform_add_child (parent : Handle) (relation? : Option String) (child : Handle)
    (document : Document) :
    perform (addChild parent relation? child) document =
      perform (addChildAt parent (document.otherChildren parent child) relation? child)
        document := by
  simp [addChild]

/-- Importing a tree succeeds with the handle of its top. -/
theorem perform_import_tree (tree : SyntaxTree) (document : Document) :
    perform (importTree tree) document = (.ok document.next, document.imported tree) := by
  simp [importTree, imported]

/-- A new node is an imported tree without branches. -/
theorem perform_new_node (node : Node) (document : Document) :
    perform (newNode node) document = (.ok document.next, document.imported (.leaf node)) :=
  perform_import_tree _ _

/-- The child at an index is taken out if there is one. -/
theorem perform_remove_child (parent : Handle) (index : Nat) (document : Document) :
    perform (removeChild parent index) document =
      match document.child? parent index with
      | some child => (.ok child, document.detach child)
      | none => (.error (.indexOutOfRange index (document.childCount parent)), document) := by
  simp only [removeChild, perform_bind, perform_get]
  cases document.child? parent index <;> simp

/-- Children are taken out one after the other. -/
theorem perform_clear_children (parent : Handle) (document : Document) :
    perform (clearChildren parent) document =
      (.ok ⟨⟩, (document.children parent).foldl Document.detach document) := rfl

/-- A node without a parent has no slot to give. The slot of another node is freed and then
filled. -/
theorem perform_give_slot (node other : Handle) (document : Document) :
    perform (giveSlot node other) document =
      match document.parent? node, document.index? node, document.relation? node with
      | some parent, some index, some relation =>
        match perform (removeChild parent index) document with
        | (.ok _, left) => perform (addChildAt parent index (some relation) other) left
        | (.error fault, left) => (.error fault, left)
      | _, _, _ => (.ok ⟨⟩, document) := by
  simp only [giveSlot, perform_bind, perform_get]
  cases document.parent? node with
  | none => rfl
  | some parent =>
    cases document.index? node with
    | none => rfl
    | some index =>
      cases document.relation? node with
      | none => rfl
      | some relation =>
        simp only [perform_bind, perform_discard]
        rcases perform (removeChild parent index) document with ⟨fault | child, left⟩ <;> rfl

/-- One node is put in place of another in four steps, where nothing speaks against it. -/
theorem perform_replace_with (node other : Handle) (document : Document) :
    perform (replaceWith node other) document =
      if node = other then (.ok ⟨⟩, document)
      else
        match document.replaceFault? node other with
        | some fault => (.error fault, document)
        | none =>
          match perform (giveSlot node other) (document.detach other) with
          | (.ok _, left) => perform (switchRoot node other) (left.transferBranches node other)
          | (.error fault, left) => (.error fault, left) := by
  unfold replaceWith
  split
  · simp
  · simp only [perform_bind, perform_get, perform_stop_on]
    cases document.replaceFault? node other with
    | some fault => rfl
    | none =>
      simp only [perform_modify]
      rcases perform (giveSlot node other) (document.detach other) with ⟨fault | value, left⟩ <;>
        simp

end Editing

end TreeDelta
