import Mathlib.Data.List.Perm.Subperm
import Mathlib.Order.Bounds.Defs
import TreeDelta.Proofs.Document.Steps

/-!
# Every operation keeps documents well formed

An operation that stops leaves the document as it was or, if it puts one node in place of another,
as one of its steps has left it. So it is enough that every step keeps a document well formed, and
that a step runs only after what could go wrong with it has been ruled out.

Adding a node needs a free key and a parent that does not hang below the node. Both are asked before
the node is taken out of its old place, and taking it out makes neither of them false. Putting one
node in place of another changes links twice before the branches are moved. Yet a link that was not
there before can only lead to the other node, and only from the old parent of the first, so what
hangs below the first has hung there before.
-/

namespace TreeDelta

open Document Editing

namespace Document

variable {document : Document}

/-- What has been ruled out when nothing speaks against adding a child. -/
theorem add_fault_none {parent child : Handle} {index : Nat} {relation? : Option String}
    (clear : document.addFault? parent index relation? child = none) :
    parent ∈ document.handles ∧ child ∈ document.handles ∧
      document.isAncestorOrSelf child parent = false ∧
      (∀ relation ∈ relation?, ∀ other,
        document.childByRelation? parent relation = some other → other = child) ∧
      index ≤ document.otherChildren parent child := by
  unfold addFault? at clear
  simp only at clear
  split at clear
  · cases clear
  split at clear
  · cases clear
  split at clear
  · cases clear
  split at clear
  · cases clear
  split at clear
  · cases clear
  next parentHere childHere apart _ untaken inside =>
  rw [Option.filter_eq_none_iff] at untaken
  refine ⟨(has_iff _).mp (by simpa using parentHere), (has_iff _).mp (by simpa using childHere),
    by simpa using apart, fun relation given other found => ?_, Nat.not_lt.mp inside⟩
  simpa [found] using untaken relation given

/-- What has been ruled out when nothing speaks against putting one node in place of another. -/
theorem replace_fault_none {node other : Handle}
    (clear : document.replaceFault? node other = none) :
    node ∈ document.handles ∧ other ∈ document.handles ∧
      document.isAncestorOrSelf node other = false ∧
      document.isAncestorOrSelf other node = false ∧
      (document.relations node).Disjoint (document.relations other) := by
  unfold replaceFault? at clear
  simp only at clear
  split at clear
  · cases clear
  split at clear
  · cases clear
  split at clear
  · cases clear
  next nodeHere otherHere apart =>
  simp only [Bool.or_eq_true, not_or, Bool.not_eq_true] at apart
  refine ⟨(has_iff _).mp (by simpa using nodeHere), (has_iff _).mp (by simpa using otherHere),
    apart.1, apart.2, fun relation here there => ?_⟩
  rw [Option.map_eq_none_iff, List.find?_eq_none] at clear
  exact clear relation here (List.contains_iff_mem.mpr there)

/-- A fresh key is the numeral of the least number, not below the number of keys, whose numeral is
not one of them, and the search does not go beyond twice the number of keys. -/
theorem fresh_numeral (relations : List String) :
    ∃ number, freshRelation relations = toString number ∧
      IsLeast {free : Nat | relations.length ≤ free ∧ toString free ∉ relations} number ∧
      number ≤ 2 * relations.length := by
  cases found : (List.range (relations.length + 1)).find?
      fun step => decide (toString (relations.length + step) ∉ relations) with
  | some step =>
    obtain ⟨free, tried, earlier⟩ := List.find?_range_eq_some.mp found
    have bound := List.mem_range.mp tried
    refine ⟨relations.length + step, ?_, ⟨⟨by omega, by simpa using free⟩, ?_⟩, by omega⟩
    · unfold freshRelation
      simp only [List.find?_map, Function.comp_def, found, Option.map_some, Option.getD_some]
    · rintro other ⟨notBelow, otherFree⟩
      by_contra! smaller
      have taken := earlier (other - relations.length) (by omega)
      rw [Nat.add_sub_cancel' notBelow] at taken
      exact otherFree (by simpa using taken)
  | none =>
    -- One more number is tried than there are keys, and the numerals are different.
    exfalso
    have different : ((List.range (relations.length + 1)).map fun step =>
        toString (relations.length + step)).Nodup := by
      refine List.nodup_range.map fun first second same => ?_
      exact Nat.add_left_cancel (Named.numerals_differ same)
    have taken := List.subperm_of_subset different fun candidate member => by
      obtain ⟨step, tried, rfl⟩ := List.mem_map.mp member
      simpa using List.find?_eq_none.mp found step tried
    have count := taken.length_le
    rw [List.length_map, List.length_range] at count
    omega

/-- A fresh key is not one of the keys. -/
theorem fresh_relation (relations : List String) : freshRelation relations ∉ relations := by
  obtain ⟨number, fresh, least, -⟩ := fresh_numeral relations
  rw [fresh]
  exact least.1.2

/-- When nothing speaks against adding a child, the child can be put in as soon as it has been
taken out. -/
theorem add_ready (unique : document.handles.Nodup) {parent child : Handle} {index : Nat}
    {relation? : Option String} (clear : document.addFault? parent index relation? child = none) :
    ∃ tree ∈ (document.detach child).trees, tree.label.handle = child ∧
      parent ∈ (document.detach child).handles ∧ parent ∉ (treeRows tree).map Row.handle ∧
      index ≤ ((document.detach child).links parent).length := by
  obtain ⟨parentHere, childHere, apart, _, inside⟩ := add_fault_none clear
  obtain ⟨place, found⟩ := place_of_handle childHere
  obtain ⟨listed, rfl⟩ := place_found found
  refine ⟨place.tree, detach_loose found, rfl, (detach_handles unique _).mem_iff.mpr parentHere,
    fun below => ?_, ?_⟩
  · have above := ancestor_of_hangs unique childHere (hangs_inside unique listed below)
    rw [apart] at above
    cases above
  · rw [otherChildren, children_eq, List.filter_map, List.length_map] at inside
    rwa [detach_links unique]

/-- A document stays well formed when a child is added that nothing speaks against. -/
theorem WellFormed.add (wellFormed : document.WellFormed) {parent child : Handle} {index : Nat}
    {relation? : Option String} (clear : document.addFault? parent index relation? child = none) :
    ((document.detach child).attach parent index
      (relation?.getD (freshRelation ((document.detach child).relations parent)))
      child).WellFormed := by
  have unique := wellFormed.handlesDiffer
  obtain ⟨tree, loose, rfl, present, outside, inside⟩ := add_ready unique clear
  refine (wellFormed.detach _).attach loose present outside inside ?_
  cases relation? with
  | none => exact fresh_relation _
  | some relation =>
    intro taken
    rw [Option.getD_some, relations_eq, detach_links unique] at taken
    obtain ⟨⟨_, other⟩, linked, rfl⟩ := List.mem_map.mp taken
    obtain ⟨linked, different⟩ := List.mem_filter.mp linked
    have differ := wellFormed.relations_nodup parent
    have found := lookup_child differ linked
    have same := (add_fault_none clear).2.2.2.1 _ rfl other found
    exact of_decide_eq_true different same

/-- A document stays well formed when a child is added, and stays as it is when the child is
refused. -/
theorem WellFormed.add_child_at (wellFormed : document.WellFormed) (parent : Handle) (index : Nat)
    (relation? : Option String) (child : Handle) :
    (perform (addChildAt parent index relation? child) document).2.WellFormed := by
  rw [perform_add_child_at]
  cases clear : document.addFault? parent index relation? child with
  | some fault => exact wellFormed
  | none => exact wellFormed.add clear

/-- Adding a child makes or loses no node. -/
theorem add_handles (unique : document.handles.Nodup) {parent child : Handle} {index : Nat}
    {relation? : Option String} (clear : document.addFault? parent index relation? child = none)
    (relation : String) :
    ((document.detach child).attach parent index relation child).handles.Perm
      document.handles := by
  obtain ⟨tree, loose, rfl, present, outside, inside⟩ := add_ready unique clear
  have detached := detach_handles unique tree.label.handle
  exact (handles_of_rows (Row.relink_handle _ _)
    (attach_rows (detached.nodup_iff.mpr unique) loose present outside inside relation)).trans
    detached

/-- After a child has been added, a link either was there before or is that of the child. -/
theorem add_links (unique : document.handles.Nodup) {parent child : Handle} {index : Nat}
    {relation? : Option String} (clear : document.addFault? parent index relation? child = none)
    (relation : String) {upper : Handle} {link : String × Handle}
    (linked : link ∈ ((document.detach child).attach parent index relation child).links upper) :
    link ∈ document.links upper ∨ link.2 = child ∧ upper = parent := by
  have handles := add_handles unique clear relation
  obtain ⟨tree, loose, rfl, present, outside, inside⟩ := add_ready unique clear
  have detached := detach_handles unique tree.label.handle
  obtain ⟨key, lower⟩ := link
  have upperPresent := detached.mem_iff.mpr (handles.mem_iff.mp (handle_of_link linked))
  rw [attach_links (detached.nodup_iff.mpr unique) loose present outside inside relation
    upperPresent] at linked
  split at linked
  · next same =>
    rcases (List.mem_insertIdx inside).mp linked with new | old
    · exact .inr ⟨(Prod.mk.inj new).2, same⟩
    · exact .inl (same ▸ detach_links_among unique old)
  · exact .inl (detach_links_among unique linked)

/-- What an operation on the slot of a node may change: a node may become a child of the parent of
the first node, but no other link comes up and no node is made or lost. -/
structure Slotted (node other : Handle) (before after : Document) : Prop where
  wellFormed : after.WellFormed
  handles : after.handles.Perm before.handles
  links : ∀ upper, ∀ link ∈ after.links upper,
    link ∈ before.links upper ∨ link.2 = other ∧ node ∈ before.children upper

/-- Giving the slot of a node to another one links the other to the parent of the node at most. -/
theorem WellFormed.give_slot (wellFormed : document.WellFormed) (node other : Handle) :
    Slotted node other document (perform (giveSlot node other) document).2 := by
  have unique := wellFormed.handlesDiffer
  have unchanged : Slotted node other document document :=
    ⟨wellFormed, .refl _, fun _ _ linked => .inl linked⟩
  rw [perform_give_slot]
  split
  · next parent index relation parentFound _ _ =>
    rw [perform_remove_child]
    cases document.child? parent index with
    | none => exact unchanged
    | some child =>
      have detached := wellFormed.detach child
      simp only [perform_add_child_at]
      cases clear : (document.detach child).addFault? parent index (some relation) other with
      | some fault =>
        exact ⟨detached, detach_handles unique child,
          fun _ _ linked => .inl (detach_links_among unique linked)⟩
      | none =>
        have freed := detached.handlesDiffer
        refine ⟨detached.add clear, (add_handles freed clear _).trans (detach_handles unique child),
          fun upper link linked => ?_⟩
        rcases add_links freed clear _ linked with old | ⟨same, rfl⟩
        · exact .inl (detach_links_among unique old)
        · exact .inr ⟨same, (parent_iff unique _ _).mp parentFound⟩
  · exact unchanged

/-- When the branches of a node are to be moved, what hangs below the node has hung there before. A
new link would lead to it from its own parent, which stands above it. -/
theorem Slotted.hangs {before after : Document} {node other : Handle}
    (slotted : Slotted node other before after) (unique : before.handles.Nodup) {lower : Handle}
    (hangs : after.Hangs node lower) : before.Hangs node lower := by
  induction hangs with
  | refl => exact .refl
  | @tail upper lower _ child inductionHypothesis =>
    rw [children_eq] at child
    obtain ⟨link, linked, rfl⟩ := List.mem_map.mp child
    rcases slotted.links upper link linked with old | ⟨_, above⟩
    · refine inductionHypothesis.tail ?_
      rw [children_eq]
      exact List.mem_map_of_mem old
    · have higher := depth_child unique above
      have deeper := depth_hangs unique inductionHypothesis
      omega

/-- The keys of a node that is not the parent of the first one have been there before. -/
theorem Slotted.relations {before after : Document} {node other upper : Handle}
    (slotted : Slotted node other before after) (elsewhere : node ∉ before.children upper)
    {relation : String} (key : relation ∈ after.relations upper) :
    relation ∈ before.relations upper := by
  rw [relations_eq] at key ⊢
  obtain ⟨link, linked, rfl⟩ := List.mem_map.mp key
  rcases slotted.links upper link linked with old | ⟨_, above⟩
  · exact List.mem_map_of_mem old
  · exact absurd above elsewhere

/-- A node is not one of its own children. -/
theorem not_own_child (unique : document.handles.Nodup) (handle : Handle) :
    handle ∉ document.children handle := by
  intro child
  have below := depth_child unique child
  omega

/-- A node that has been given the slot of another one does not hang below it. -/
theorem Slotted.outside {left : Document} {node other : Handle}
    (slotted : Slotted node other document left) (unique : document.handles.Nodup)
    (clear : document.replaceFault? node other = none) : ¬ left.Hangs node other := by
  obtain ⟨nodeHere, -, notBelow, -, -⟩ := replace_fault_none clear
  intro hangs
  have above := ancestor_of_hangs unique nodeHere (slotted.hangs unique hangs)
  rw [notBelow] at above
  cases above

/-- When the slot of a node has been given away, both nodes are there and the other one does not
hang below the node. -/
theorem Slotted.movable {left : Document} {node other : Handle}
    (slotted : Slotted node other document left) (unique : document.handles.Nodup)
    (clear : document.replaceFault? node other = none) :
    node ∈ left.handles ∧ other ∈ left.handles ∧ ¬ left.Hangs node other := by
  obtain ⟨nodeHere, otherHere, -⟩ := replace_fault_none clear
  exact ⟨slotted.handles.mem_iff.mpr nodeHere, slotted.handles.mem_iff.mpr otherHere,
    slotted.outside unique clear⟩

/-- The branches of a node can be moved to the node that has been given its slot. -/
theorem Slotted.transfer {left : Document} {node other : Handle}
    (slotted : Slotted node other document left) (unique : document.handles.Nodup)
    (clear : document.replaceFault? node other = none) :
    (left.transferBranches node other).WellFormed ∧
      other ∈ (left.transferBranches node other).handles := by
  obtain ⟨-, otherHere, -, notAbove, apart⟩ := replace_fault_none clear
  obtain ⟨nodeLeft, otherLeft, outside⟩ := slotted.movable unique clear
  have elsewhere : node ∉ document.children other := fun child => by
    have above := ancestor_of_hangs unique otherHere (.single child)
    rw [notAbove] at above
    cases above
  refine ⟨slotted.wellFormed.transfer nodeLeft otherLeft outside fun relation here there => ?_, ?_⟩
  · exact apart (slotted.relations (not_own_child unique node) here)
      (slotted.relations elsewhere there)
  · have moved := transfer_handles slotted.wellFormed.handlesDiffer nodeLeft otherLeft outside
    exact moved.mem_iff.mpr otherLeft

/-- The slot of a node may be given to a node that has been taken out for it. -/
theorem WellFormed.slotted (wellFormed : document.WellFormed) (node other : Handle) :
    Slotted node other document (perform (giveSlot node other) (document.detach other)).2 := by
  have unique := wellFormed.handlesDiffer
  have given := (wellFormed.detach other).give_slot node other
  refine ⟨given.wellFormed, given.handles.trans (detach_handles unique other),
    fun upper link linked => ?_⟩
  rcases given.links upper link linked with old | ⟨same, above⟩
  · exact .inl (detach_links_among unique old)
  · rw [children_eq] at above ⊢
    obtain ⟨parentLink, member, rfl⟩ := List.mem_map.mp above
    exact .inr ⟨same, List.mem_map_of_mem (detach_links_among unique member)⟩

/-- A document stays well formed when one of its nodes becomes the root. -/
theorem WellFormed.switch_root (wellFormed : document.WellFormed) {node other : Handle}
    (present : other ∈ document.handles) :
    (perform (switchRoot node other) document).2.WellFormed := by
  simp only [switchRoot, perform_modify]
  split
  · exact ⟨wellFormed.handlesDiffer, wellFormed.handlesGiven, present, wellFormed.keysDiffer⟩
  · exact wellFormed

/-- A document stays well formed when one node is put in place of another. -/
theorem WellFormed.replace (wellFormed : document.WellFormed) (node other : Handle) :
    (perform (replaceWith node other) document).2.WellFormed := by
  have unique := wellFormed.handlesDiffer
  rw [perform_replace_with]
  split
  · exact wellFormed
  cases clear : document.replaceFault? node other with
  | some fault => exact wellFormed
  | none =>
    have slotted := wellFormed.slotted node other
    simp only
    generalize perform (giveSlot node other) (document.detach other) = given at slotted
    obtain ⟨fault | _, left⟩ := given
    · exact slotted.wellFormed
    · obtain ⟨moved, present⟩ := slotted.transfer unique clear
      exact moved.switch_root present

end Document

end TreeDelta
