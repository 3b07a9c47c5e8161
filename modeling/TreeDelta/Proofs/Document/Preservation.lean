import Mathlib.Data.List.InsertIdx
import TreeDelta.Proofs.Document.Lineage

/-!
# Surgery keeps documents well formed

Each change of shape is a change of rows that keeps their handles, so the document stays well formed
when the changed rows have different keys. Taking a node out leaves keys away; putting one in needs
a key that is free; moving branches needs keys that the other node does not have.

Only a node that does not hang below another one can receive its branches or be its parent.
Otherwise the rows would be lost with the branches.
-/

namespace TreeDelta.Document

section Rows

variable {before after : Document} {change : Row → Row}

/-- A change of rows that keeps their handles keeps the handles. -/
theorem handles_of_rows (keeps : ∀ row, (change row).handle = row.handle)
    (rows : after.rows.Perm (before.rows.map change)) : after.handles.Perm before.handles := by
  have changed := rows.map Row.handle
  rw [List.map_map, rows_handles] at changed
  rw [← rows_handles before]
  simpa only [Function.comp_def, keeps] using changed

/-- After a change of rows a node has the links of its changed row. -/
theorem links_of_rows (unique : before.handles.Nodup)
    (keeps : ∀ row, (change row).handle = row.handle)
    (rows : after.rows.Perm (before.rows.map change)) {handle : Handle}
    (present : handle ∈ before.handles) :
    ∃ row ∈ before.rows, row.handle = handle ∧ row.links = before.links handle ∧
      after.links handle = (change row).links := by
  obtain ⟨row, listed, named, links⟩ := row_of_handle present
  refine ⟨row, listed, named, links, ?_⟩
  have afterUnique := (handles_of_rows keeps rows).nodup_iff.mpr unique
  have changed := links_of_row afterUnique (rows.mem_iff.mpr (List.mem_map_of_mem listed))
  rwa [keeps, named] at changed

/-- Only nodes of the document have links. -/
theorem links_absent {document : Document} {handle : Handle}
    (absent : handle ∉ document.handles) : document.links handle = [] :=
  List.eq_nil_iff_forall_not_mem.mpr fun ⟨_, _⟩ linked => absent (handle_of_link linked)

/-- A document whose rows have been changed is well formed if the changed rows have different
keys. -/
theorem well_formed_of_rows (wellFormed : before.WellFormed)
    (keeps : ∀ row, (change row).handle = row.handle)
    (rows : after.rows.Perm (before.rows.map change)) (next : after.next = before.next)
    (root : after.root ∈ before.handles) (keys : ∀ row ∈ before.rows, (change row).keys.Nodup) :
    after.WellFormed := by
  have handles := handles_of_rows keeps rows
  rw [well_formed_iff]
  simp only [rows_handles]
  refine ⟨handles.nodup_iff.mpr wellFormed.handlesDiffer, fun row listed => ?_,
    handles.mem_iff.mpr root, fun row listed => ?_⟩
  · rw [next]
    refine wellFormed.handlesGiven _ (handles.mem_iff.mp ?_)
    rw [← rows_handles]
    exact List.mem_map_of_mem listed
  · obtain ⟨old, oldListed, rfl⟩ := List.mem_map.mp (rows.mem_iff.mp listed)
    exact keys old oldListed

end Rows

variable {document : Document}

/-- The keys of a row of a well-formed document are different. -/
theorem WellFormed.row_keys (wellFormed : document.WellFormed) {row : Row}
    (listed : row ∈ document.rows) : row.keys.Nodup :=
  (well_formed_iff.mp wellFormed).2.2.2 row listed

/-- The keys of a node of a well-formed document are different. -/
theorem WellFormed.relations_nodup (wellFormed : document.WellFormed) (handle : Handle) :
    (document.relations handle).Nodup := by
  rw [relations_eq]
  by_cases present : handle ∈ document.handles
  · obtain ⟨row, listed, _, links⟩ := row_of_handle present
    rw [← links]
    exact wellFormed.row_keys listed
  · rw [links_absent present]
    exact List.nodup_nil

/-! ### Taking a node out -/

/-- Taking a node out leaves the root. -/
@[simp] theorem detach_root (handle : Handle) : (document.detach handle).root = document.root := by
  unfold detach
  split <;> rfl

/-- Taking a node out gives no handle. -/
@[simp] theorem detach_next (handle : Handle) : (document.detach handle).next = document.next := by
  unfold detach
  split <;> rfl

/-- Taking a node out of a document leaves it among the nodes. -/
theorem detach_handles (unique : document.handles.Nodup) (handle : Handle) :
    (document.detach handle).handles.Perm document.handles :=
  handles_of_rows (Row.without_handle handle) (detach_rows unique handle)

/-- A node that is taken out is struck from all links. -/
theorem detach_links (unique : document.handles.Nodup) (handle upper : Handle) :
    (document.detach handle).links upper =
      (document.links upper).filter fun link => link.2 ≠ handle := by
  by_cases present : upper ∈ document.handles
  · obtain ⟨row, _, _, links, detached⟩ :=
      links_of_rows unique (Row.without_handle handle) (detach_rows unique handle) present
    rw [detached, ← links]
    rfl
  · rw [links_absent present,
      links_absent fun again => present ((detach_handles unique handle).mem_iff.mp again)]
    rfl

/-- Taking a node out makes no links. -/
theorem detach_links_among (unique : document.handles.Nodup) {handle upper : Handle}
    {link : String × Handle} (linked : link ∈ (document.detach handle).links upper) :
    link ∈ document.links upper := by
  rw [detach_links unique] at linked
  exact List.mem_of_mem_filter linked

/-- The children that remain when one is taken out. -/
theorem detach_children (unique : document.handles.Nodup) (taken handle : Handle) :
    (document.detach taken).children handle =
      (document.children handle).filter (· ≠ taken) := by
  rw [children_eq, children_eq, detach_links unique, List.filter_map]
  rfl

/-- What hangs below a node after another one has been taken out has hung there before. -/
theorem hangs_detach (unique : document.handles.Nodup) {taken upper lower : Handle}
    (hangs : (document.detach taken).Hangs upper lower) : document.Hangs upper lower := by
  refine Relation.ReflTransGen.mono (fun parent child listed => ?_) _ _ hangs
  rw [children_eq] at listed ⊢
  obtain ⟨link, linked, rfl⟩ := List.mem_map.mp listed
  exact List.mem_map_of_mem (detach_links_among unique linked)

/-- What hangs below a node that is taken out becomes a tree of its own. -/
theorem detach_loose {handle : Handle} {place : Place Entry}
    (found : document.place? handle = some place) :
    place.tree ∈ (document.detach handle).trees := by
  obtain ⟨tree, above⟩ := place
  cases above with
  | nil =>
    obtain ⟨whole, member, inside⟩ := List.mem_flatMap.mp (place_found found).1
    obtain same | ⟨index, child, _, below⟩ := (Place.mem_preorder_from _ _ _).mp inside
    · obtain rfl : tree = whole := (Place.mk.inj same).1
      simpa [detach, found] using member
    · have longer := ((Place.mem_preorder_iff ⟨child, [⟨whole, index⟩]⟩ _).mp below).follows
      obtain ⟨steps, path, _⟩ := longer
      simp [Place.path] at path
  | cons up further => simp [detach, found]

/-- Taking a node out keeps a document well formed. -/
theorem WellFormed.detach (wellFormed : document.WellFormed) (handle : Handle) :
    (document.detach handle).WellFormed := by
  refine well_formed_of_rows wellFormed (Row.without_handle handle)
    (detach_rows wellFormed.handlesDiffer handle) (detach_next handle) ?_ fun row listed => ?_
  · rw [detach_root]
    exact wellFormed.rootExists
  · exact (wellFormed.row_keys listed).sublist (List.filter_sublist.map Prod.fst)

/-! ### Putting a node in -/

/-- Putting a node in leaves the root. -/
@[simp] theorem attach_root (parent : Handle) (index : Nat) (relation : String) (child : Handle) :
    (document.attach parent index relation child).root = document.root := by
  unfold attach
  split <;> rfl

/-- Putting a node in gives no handle. -/
@[simp] theorem attach_next (parent : Handle) (index : Nat) (relation : String) (child : Handle) :
    (document.attach parent index relation child).next = document.next := by
  unfold attach
  split <;> rfl

/-- A node that is put in becomes a link of its parent, and no other links change. -/
theorem attach_links (unique : document.handles.Nodup) {tree : Tree Entry}
    (loose : tree ∈ document.trees) {parent : Handle} (present : parent ∈ document.handles)
    (outside : parent ∉ (treeRows tree).map Row.handle) {index : Nat}
    (inside : index ≤ (document.links parent).length) (relation : String) {upper : Handle}
    (upperPresent : upper ∈ document.handles) :
    (document.attach parent index relation tree.label.handle).links upper =
      if upper = parent then (document.links parent).insertIdx index (relation, tree.label.handle)
      else document.links upper := by
  obtain ⟨row, _, rfl, links, attached⟩ := links_of_rows unique (Row.relink_handle _ _)
    (attach_rows unique loose present outside inside relation) upperPresent
  rw [attached, Row.relink_links, links]
  split
  · next same => rw [same]
  · rfl

/-- A document stays well formed when a node is put in under a key that is free. -/
theorem WellFormed.attach (wellFormed : document.WellFormed) {tree : Tree Entry}
    (loose : tree ∈ document.trees) {parent : Handle} (present : parent ∈ document.handles)
    (outside : parent ∉ (treeRows tree).map Row.handle) {index : Nat}
    (inside : index ≤ (document.links parent).length) {relation : String}
    (free : relation ∉ document.relations parent) :
    (document.attach parent index relation tree.label.handle).WellFormed := by
  have unique := wellFormed.handlesDiffer
  refine well_formed_of_rows wellFormed (Row.relink_handle _ _)
    (attach_rows unique loose present outside inside relation) (attach_next _ _ _ _) ?_
    fun row listed => ?_
  · rw [attach_root]
    exact wellFormed.rootExists
  · have different := wellFormed.row_keys listed
    unfold Row.relink
    split
    · next same =>
      have links := links_of_row unique listed
      rw [same] at links
      rw [relations_eq, links] at free
      rw [links] at inside
      rw [Row.keys, List.map_insertIdx]
      rw [(List.perm_insertIdx _ _ (by simpa using inside)).nodup_iff, List.nodup_cons]
      exact ⟨free, different⟩
    · exact different

/-! ### Moving branches -/

/-- Moving branches leaves the root. -/
@[simp] theorem transfer_root (source target : Handle) :
    (document.transferBranches source target).root = document.root := rfl

/-- Moving branches gives no handle. -/
@[simp] theorem transfer_next (source target : Handle) :
    (document.transferBranches source target).next = document.next := rfl

/-- When branches are moved to a node that does not hang below them, their links go behind those of
the node, and no other links change. -/
theorem transfer_table (unique : document.handles.Nodup) {source target : Handle}
    (sourcePresent : source ∈ document.handles) (targetPresent : target ∈ document.handles)
    (outside : ¬ document.Hangs source target) :
    (document.transferBranches source target).rows.Perm (document.rows.map fun row =>
      (row.relink source fun _ => []).relink target (· ++ document.links source)) := by
  obtain ⟨place, found⟩ := place_of_handle sourcePresent
  obtain ⟨listed, rfl⟩ := place_found found
  have elsewhere : target ∉ (treeRows place.tree).map Row.handle :=
    fun inside => outside (hangs_inside unique listed inside)
  have rows := transfer_rows unique listed targetPresent elsewhere
  have links : document.links place.label.handle = (rowOf place.tree).links :=
    links_of_row unique (row_listed listed)
  rwa [List.map_map, ← links] at rows

/-- Moving branches makes or loses no node. -/
theorem transfer_handles (unique : document.handles.Nodup) {source target : Handle}
    (sourcePresent : source ∈ document.handles) (targetPresent : target ∈ document.handles)
    (outside : ¬ document.Hangs source target) :
    (document.transferBranches source target).handles.Perm document.handles :=
  handles_of_rows (fun row => by simp) (transfer_table unique sourcePresent targetPresent outside)

/-- When branches are moved, the links of the one node go behind those of the other, and no other
links change. -/
theorem transfer_links (unique : document.handles.Nodup) {source target : Handle}
    (sourcePresent : source ∈ document.handles) (targetPresent : target ∈ document.handles)
    (outside : ¬ document.Hangs source target) (upper : Handle) :
    (document.transferBranches source target).links upper =
      if upper = target then document.links target ++ document.links source
      else if upper = source then [] else document.links upper := by
  have handles := transfer_handles unique sourcePresent targetPresent outside
  have different : target ≠ source := by
    rintro rfl
    exact outside .refl
  by_cases present : upper ∈ document.handles
  · obtain ⟨row, -, rfl, links, changed⟩ := links_of_rows unique (fun row => by simp)
      (transfer_table unique sourcePresent targetPresent outside) present
    rw [changed, Row.relink_links, Row.relink_links, Row.relink_handle]
    split
    · next atTarget => rw [if_neg (atTarget ▸ different), links, atTarget]
    · rw [links]
  · have notTarget : upper ≠ target := fun same => present (same ▸ targetPresent)
    have notSource : upper ≠ source := fun same => present (same ▸ sourcePresent)
    rw [if_neg notTarget, if_neg notSource, links_absent present,
      links_absent fun again => present (handles.mem_iff.mp again)]

/-- A document stays well formed when branches are moved whose keys the other node does not have. -/
theorem WellFormed.transfer (wellFormed : document.WellFormed) {source target : Handle}
    (sourcePresent : source ∈ document.handles) (targetPresent : target ∈ document.handles)
    (outside : ¬ document.Hangs source target)
    (apart : (document.relations source).Disjoint (document.relations target)) :
    (document.transferBranches source target).WellFormed := by
  refine well_formed_of_rows wellFormed (fun row => by simp)
    (transfer_table wellFormed.handlesDiffer sourcePresent targetPresent outside)
    (transfer_next _ _) ?_ fun row listed => ?_
  · rw [transfer_root]
    exact wellFormed.rootExists
  · have different := wellFormed.row_keys listed
    simp only [Row.keys, Row.relink_links, Row.relink_handle]
    split
    · next atTarget =>
      have notSource : row.handle ≠ source := by
        rintro atSource
        exact outside (atSource ▸ atTarget ▸ .refl)
      have links := links_of_row wellFormed.handlesDiffer listed
      rw [relations_eq, relations_eq, ← atTarget, links] at apart
      rw [if_neg notSource, List.map_append, List.nodup_append', ← relations_eq]
      refine ⟨different, wellFormed.relations_nodup source, fun key here there => ?_⟩
      rw [relations_eq] at there
      exact apart there here
    · split
      · exact List.nodup_nil
      · exact different

end TreeDelta.Document
