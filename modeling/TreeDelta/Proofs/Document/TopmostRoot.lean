import TreeDelta.Proofs.Document.Appended
import TreeDelta.Proofs.Document.Replacement

/-!
# Whether the root is topmost

Paths start at the root and take it to be topmost, but no operation sees to it. A node is only
refused where it would come to stand below itself, so the root can be added below a node that hangs
loose, and it can be put in place of a node that hangs somewhere in another tree. Nothing else gives
it a parent: making and copying nodes, importing trees and taking nodes out never do, and a node
that becomes the root in place of the old one takes over its slot and so stands topmost as well.

Along a whole run of changes the root is topmost throughout if and only if no step of the run puts
it below another node.
-/

namespace TreeDelta.Document

open Editing

/-- The node that an operation puts below another one, if it does not stop. A node that is put in
place of another gets a parent only if the other has one. -/
def Operation.putBelow? (document : Document) : Operation → Option Handle
  | addChild _ _ child => some child
  | addChildAt _ _ _ child => some child
  | replaceWith node other =>
    if node ≠ other ∧ (document.parent? node).isSome then some other else none
  | _ => none

/-- One change of a document: an operation on its nodes, or a copy of what hangs below a node of
another document that comes into it. -/
inductive Change where
  | edited (operation : Operation)
  | imported (tree : SyntaxTree)
    (taken : ∃ source handle, Reachable source ∧ source.tree? handle = some tree)

/-- The document that a change leaves behind. -/
def changed (document : Document) : Change → Document
  | .edited operation => document.left operation
  | .imported tree _ => (perform (importTree tree) document).2

/-- Whether a change puts a node below another one. -/
def Change.PutsBelow (document : Document) (handle : Handle) : Change → Prop
  | edited operation => operation.putBelow? document = some handle ∧
      (perform operation.run document).1 = .ok ⟨⟩
  | imported _ _ => False

/-- The document after a list of changes. -/
def after (document : Document) (changes : List Change) : Document :=
  changes.foldl changed document

/-- Whether the root has no parent. -/
def RootTopmost (document : Document) : Prop := document.parent? document.root = none

instance (document : Document) : Decidable document.RootTopmost :=
  inferInstanceAs (Decidable (_ = _))

variable {document : Document}

/-- A change of a document that can be reached leads to one that can be reached. -/
theorem Reachable.changed (reached : Reachable document) (change : Change) :
    Reachable (document.changed change) := by
  cases change with
  | edited operation => exact reached.edited operation
  | imported tree taken =>
    obtain ⟨source, handle, sourceReached, taken⟩ := taken
    exact reached.imported sourceReached taken

/-- So does a list of changes. -/
theorem Reachable.after (reached : Reachable document) (changes : List Change) :
    Reachable (document.after changes) :=
  List.foldlRecOn changes Document.changed reached fun _ before change _ => before.changed change

/-! ### What one step does to the root -/

/-- Adding a child to a document whose root is topmost leaves the root topmost, unless the child is
the root and can be added. -/
theorem WellFormed.add_topmost (wellFormed : document.WellFormed) (topmost : document.RootTopmost)
    (parent : Handle) (index : Nat) (relation? : Option String) (child : Handle) :
    (perform (addChildAt parent index relation? child) document).2.RootTopmost ↔
      ¬ (child = document.root ∧
        (perform (addChildAt parent index relation? child) document).1 = .ok ⟨⟩) := by
  rw [RootTopmost] at topmost
  rw [RootTopmost, (add_frame ..).1, perform_add_child_at]
  cases clear : document.addFault? parent index relation? child with
  | some fault => simp [topmost]
  | none =>
    simp only [add_parent wellFormed.handlesDiffer clear, and_true]
    by_cases same : document.root = child
    · simp [same]
    · simp [same, Ne.symm same, topmost]

/-- Taking a node out leaves a topmost root topmost. -/
theorem WellFormed.detach_topmost (wellFormed : document.WellFormed)
    (topmost : document.RootTopmost) (taken : Handle) : (document.detach taken).RootTopmost := by
  rw [RootTopmost] at topmost
  rw [RootTopmost, detach_root, detach_parent wellFormed.handlesDiffer, topmost, ite_self]

/-- Changing what a node carries leaves a topmost root topmost. -/
theorem WellFormed.update_topmost (wellFormed : document.WellFormed)
    (topmost : document.RootTopmost) (handle : Handle) (change : Node → Node) :
    (document.updateNode handle change).RootTopmost :=
  (update_parent wellFormed.handlesDiffer handle change document.root).trans topmost

/-- A tree that comes into a document leaves a topmost root topmost. -/
theorem WellFormed.imported_topmost (wellFormed : document.WellFormed)
    (topmost : document.RootTopmost) (tree : SyntaxTree) : (document.imported tree).RootTopmost :=
  ((imported_untouched document tree).parents _ wellFormed.rootExists).trans topmost

/-- Putting one node in place of another leaves a topmost root topmost, or the node that becomes the
root, unless the root has been put in place of a node with a parent. -/
theorem WellFormed.replace_topmost (wellFormed : document.WellFormed)
    (topmost : document.RootTopmost) (node other : Handle) :
    (perform (replaceWith node other) document).2.RootTopmost ↔
      ¬ ((node ≠ other ∧ (document.parent? node).isSome ∧ other = document.root) ∧
        (perform (replaceWith node other) document).1 = .ok ⟨⟩) := by
  rw [RootTopmost] at topmost
  by_cases different : node = other
  · rw [perform_replace_with, if_pos different, RootTopmost]
    simp [different, topmost]
  cases refused : document.replaceFault? node other with
  | some fault =>
    rw [perform_replace_with, if_neg different, refused, RootTopmost]
    simp [topmost]
  | none =>
    rw [RootTopmost, wellFormed.replace_root different refused, wellFormed.replace_succeeds refused]
    by_cases rootMoves : document.root = other
    · -- The root takes over the slot of the node and so its parent.
      have parent := wellFormed.replace_parent different refused different
      rw [instead_node] at parent
      rw [rootMoves, instead_else other (Ne.symm different), parent]
      simp [different]
    · have parent := wellFormed.replace_parent different refused rootMoves
      rw [parent, topmost]
      simp [Ne.symm rootMoves]

/-- One change of a document with a topmost root leaves the root topmost if and only if it does not
put it below another node.

There is one case for each change. Only adding a child and replacing a node give a node a parent
that it has not had, and they decide the statement. All the others leave the root topmost whatever
they do, and put nothing below another node. -/
theorem WellFormed.changed_topmost (wellFormed : document.WellFormed)
    (topmost : document.RootTopmost) (change : Change) :
    (document.changed change).RootTopmost ↔ ¬ change.PutsBelow document document.root := by
  cases change with
  | imported tree taken =>
    rw [changed, perform_import_tree]
    exact iff_of_true (wellFormed.imported_topmost topmost tree) id
  | edited operation =>
    rw [changed, Document.left, Change.PutsBelow]
    cases operation with
    | newNode node =>
      rw [Operation.run, discard_leaves, perform_new_node]
      exact iff_of_true (wellFormed.imported_topmost topmost _) (by simp [Operation.putBelow?])
    | shallowCopy handle =>
      rw [Operation.run, discard_leaves]
      refine iff_of_true ?_ (by simp [Operation.putBelow?])
      simp only [shallowCopy, perform_bind, perform_get]
      cases document.node? handle with
      | none => exact topmost
      | some node => exact wellFormed.imported_topmost topmost _
    | appendNew parent relation? node =>
      rw [Operation.run, discard_leaves]
      refine iff_of_true ?_ (by simp [Operation.putBelow?])
      have made := wellFormed.new_node node
      rw [perform_new_node] at made
      have fresh : document.next ≠ document.root :=
        (wellFormed.handlesGiven _ wellFormed.rootExists).ne'
      have added := (made.add_topmost (wellFormed.imported_topmost topmost _) parent
        ((document.imported (.leaf node)).childCount parent) relation? document.next).mpr
          fun both => fresh both.1
      simp only [appendNew, perform_bind, perform_get, perform_new_node]
      generalize perform (Editing.addChildAt parent _ relation? document.next) _ = outcome at added
      obtain ⟨fault | _, left⟩ := outcome
      · exact added
      · exact added
    | addChild parent relation? child =>
      rw [Operation.run, perform_add_child, wellFormed.add_topmost topmost]
      simp [Operation.putBelow?]
    | addChildAt parent index relation? child =>
      rw [Operation.run, wellFormed.add_topmost topmost]
      simp [Operation.putBelow?]
    | removeChild parent index =>
      rw [Operation.run, discard_leaves, perform_remove_child]
      refine iff_of_true ?_ (by simp [Operation.putBelow?])
      cases document.child? parent index with
      | none => exact topmost
      | some child => exact wellFormed.detach_topmost topmost child
    | clearChildren parent =>
      rw [Operation.run, perform_clear_children]
      refine iff_of_true ?_ (by simp [Operation.putBelow?])
      exact (List.foldlRecOn (motive := fun left : Document => left.WellFormed ∧ left.RootTopmost) _
        Document.detach ⟨wellFormed, topmost⟩ fun _ before child _ =>
          ⟨before.1.detach child, before.1.detach_topmost before.2 child⟩).2
    | replaceWith node other =>
      rw [Operation.run, wellFormed.replace_topmost topmost]
      simp [Operation.putBelow?, and_assoc]
    | fillIds stem =>
      rw [Operation.run, fillIds, perform_modify]
      refine iff_of_true ?_ (by simp [Operation.putBelow?])
      exact (List.foldlRecOn (motive := fun left : Document => left.WellFormed ∧ left.RootTopmost) _
        _ ⟨wellFormed, topmost⟩ fun _ before numbered _ =>
          ⟨before.1.updateNode numbered.1 _, before.1.update_topmost before.2 numbered.1 _⟩).2
    | setNode handle change =>
      exact iff_of_true (wellFormed.update_topmost topmost handle change)
        (by simp [Operation.putBelow?])

/-! ### What a run does to the root -/

/-- The root of a document that is made of a tree is the top of the tree. -/
theorem of_tree_topmost (tree : SyntaxTree) : (ofTree tree).RootTopmost := by
  obtain ⟨label, branches⟩ := tree
  simp [RootTopmost, ofTree, parent?, place?, places, withHandles, Place.preorder, Place.top,
    Place.preorderFrom, Place.label, Place.parent?]

/-- A document is made of a tree and changed step by step, by operations that succeed or stop and by
imports. Its root is topmost after every step if and only if no step puts the root below another
node: by adding it below a node that does not hang below it, or by putting it in place of such a
node that has a parent.

`changed_topmost` says what one change does. In one direction it is used at a single step, in the
other by induction from the end of the run. -/
theorem root_topmost_throughout_iff {tree : SyntaxTree} (start : Reachable (ofTree tree))
    (changes : List Change) :
    (∀ made, made <+: changes → ((ofTree tree).after made).RootTopmost) ↔
      ∀ made change, made ++ [change] <+: changes →
        ¬ change.PutsBelow ((ofTree tree).after made) ((ofTree tree).after made).root := by
  have wellFormed (made : List Change) := (start.after made).well_formed
  have next (made : List Change) (change : Change) :
      (ofTree tree).after (made ++ [change]) = ((ofTree tree).after made).changed change := by
    simp [after]
  constructor
  · intro topmost made change begins
    have before := topmost made ((List.prefix_append made [change]).trans begins)
    have afterwards := topmost (made ++ [change]) begins
    rw [next] at afterwards
    exact ((wellFormed made).changed_topmost before change).mp afterwards
  · intro spared made begins
    induction made using List.reverseRecOn with
    | nil => exact of_tree_topmost tree
    | append_singleton made change inductionHypothesis =>
      have before := inductionHypothesis ((List.prefix_append made [change]).trans begins)
      rw [next]
      exact ((wellFormed made).changed_topmost before change).mpr (spared made change begins)

/-- A new block that is put in place of a list becomes the root, and it is topmost as the list
was. -/
theorem block_for_root :
    ((ofNode (Node.bare "list")).after
        [.edited (.newNode (Node.bare "block")), .edited (.replaceWith 0 1)]).root = 1 ∧
      ((ofNode (Node.bare "list")).after
        [.edited (.newNode (Node.bare "block")), .edited (.replaceWith 0 1)]).RootTopmost := by
  refine ⟨by decide +kernel,
    (root_topmost_throughout_iff (.made (Node.bare "list")) _).mpr ?_ _ List.prefix_rfl⟩
  rintro (_ | ⟨first, _ | ⟨second, rest⟩⟩) change begins
  · obtain rfl : change = .edited (.newNode (Node.bare "block")) := by simpa using begins
    simp [Change.PutsBelow, Operation.putBelow?]
  · obtain ⟨rfl, rfl⟩ : first = .edited (.newNode (Node.bare "block")) ∧
        change = .edited (.replaceWith 0 1) := by simpa using begins
    -- The list has no parent, so the block gets none.
    have loose : (((ofNode (Node.bare "list")).after
        [.edited (.newNode (Node.bare "block"))]).parent? 0).isSome = false := by decide +kernel
    rw [Change.PutsBelow, Operation.putBelow?, if_neg fun both => Bool.eq_false_iff.mp loose both.2]
    simp
  · simpa using begins.length_le

/-- When a block is made and the list that is the root is added below it, the block is the parent of
the root. -/
theorem root_below_block :
    ∃ document : Document, document.Reachable ∧ document.root = 0 ∧
      document.parent? document.root = some 1 := by
  have reached : Reachable ((ofNode (Node.bare "list")).after
      [.edited (.newNode (Node.bare "block")), .edited (.addChild 1 none 0)]) :=
    Reachable.after (.made _) _
  exact ⟨_, reached, by decide +kernel, by decide +kernel⟩

end TreeDelta.Document
