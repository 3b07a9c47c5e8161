import TreeDelta.Proofs.Document.Refusals
import TreeDelta.Proofs.Document.Relocation

/-!
# What operations do to parents

Each operation is told by the parent that it gives to each node. Taking a node out takes its parent
away and no other; adding it gives it the new parent; and changing what a node carries changes no
parent.
-/

namespace TreeDelta.Document

variable {document : Document}

/-- A node has the same parent in two documents if it is a child of the same nodes. -/
theorem parent_ext {before after : Document} (unique : before.handles.Nodup)
    (afterUnique : after.handles.Nodup) {handle : Handle}
    (same : ∀ upper, handle ∈ after.children upper ↔ handle ∈ before.children upper) :
    after.parent? handle = before.parent? handle := by
  apply Option.ext
  intro upper
  rw [parent_iff afterUnique, parent_iff unique, same]

/-- A node that is no child has no parent. -/
theorem parent_none (unique : document.handles.Nodup) {handle : Handle}
    (noChild : ∀ upper, handle ∉ document.children upper) : document.parent? handle = none :=
  Option.eq_none_iff_forall_ne_some.mpr fun upper above =>
    noChild upper ((parent_iff unique upper handle).mp above)

/-- A node that is taken out loses its parent, and all others keep theirs. -/
theorem detach_parent (unique : document.handles.Nodup) (taken handle : Handle) :
    (document.detach taken).parent? handle =
      if handle = taken then none else document.parent? handle := by
  have detached := (detach_handles unique taken).nodup_iff.mpr unique
  split
  · next same =>
    apply parent_none detached
    intro upper
    rw [detach_children unique, same]
    simp
  · next different =>
    apply parent_ext unique detached
    intro upper
    rw [detach_children unique, List.mem_filter]
    simp [different]

/-- A node that is added has the parent it is added to, and all others keep theirs. -/
theorem add_parent (unique : document.handles.Nodup) {parent child : Handle} {index : Nat}
    {relation? : Option String} (clear : document.addFault? parent index relation? child = none)
    (relation : String) (handle : Handle) :
    ((document.detach child).attach parent index relation child).parent? handle =
      if handle = child then some parent else document.parent? handle := by
  have added := (add_handles unique clear relation).nodup_iff.mpr unique
  have inside : index ≤ ((document.children parent).filter (· ≠ child)).length :=
    (add_fault_none clear).2.2.2.2
  split
  · next same =>
    rw [parent_iff added, add_children unique clear, if_pos rfl, List.mem_insertIdx inside]
    exact .inl same
  · next different =>
    apply parent_ext unique added
    intro upper
    rw [add_children unique clear]
    split
    · next here =>
      rw [List.mem_insertIdx inside, List.mem_filter, here]
      simp [different]
    · rw [List.mem_filter]
      simp [different]

/-- Changing what a node carries changes no parent. -/
theorem update_parent (unique : document.handles.Nodup) (changed : Handle) (change : Node → Node)
    (handle : Handle) :
    (document.updateNode changed change).parent? handle = document.parent? handle := by
  have rows : (document.updateNode changed change).rows.Perm
      (document.rows.map (Row.update changed change)) := .of_eq (update_rows changed change)
  have handles := handles_of_rows (Row.update_handle changed change) rows
  apply parent_ext unique (handles.nodup_iff.mpr unique)
  intro upper
  by_cases present : upper ∈ document.handles
  · obtain ⟨row, -, -, links, updated⟩ :=
      links_of_rows unique (Row.update_handle changed change) rows present
    rw [children_eq, children_eq, updated, ← links]
    rfl
  · rw [children_eq, children_eq, links_absent present,
      links_absent fun again => present (handles.mem_iff.mp again)]

end TreeDelta.Document
