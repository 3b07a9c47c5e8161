import TreeDelta.Proofs.Document.Parents

/-!
# What links say

A link says of a node both its parent and its key, and a node with a parent has one link that leads
to it. So the links of a document are all there is to know about its shape: two documents with the
same links to a node give it the same parent and the same key.
-/

namespace TreeDelta.Document

variable {document : Document}

/-- The key of a node is that of the link that leads to it. -/
theorem relation_iff (unique : document.handles.Nodup) {lower : Handle} {relation : String} :
    document.relation? lower = some relation ↔
      ∃ upper, (relation, lower) ∈ document.links upper := by
  constructor
  · intro keyed
    obtain ⟨⟨tree, above⟩, found, placed⟩ := Option.bind_eq_some_iff.mp keyed
    obtain ⟨listed, rfl⟩ := place_found found
    cases above with
    | nil => simp [Place.relation?] at placed
    | cons up further =>
      obtain ⟨parentListed, branch⟩ := parent_listed listed
      have key : up.tree.relations[up.index]? = some relation := by
        simpa [Place.relation?] using placed
      simp only [Tree.children, Tree.relations, List.getElem?_map,
        Option.map_eq_some_iff] at branch key
      obtain ⟨⟨held, child⟩, here, rfl⟩ := branch
      obtain ⟨entry, again, rfl⟩ := key
      obtain rfl := Option.some.inj (here.symm.trans again)
      have parentFound := find_place unique parentListed
      simp only [Place.label] at parentFound
      refine ⟨up.tree.label.handle, ?_⟩
      rw [links, parentFound]
      exact List.mem_map_of_mem (f := link) (List.mem_of_getElem? here)
  · rintro ⟨upper, linked⟩
    obtain ⟨place, found⟩ := place_of_handle (handle_of_link linked)
    rw [links, found] at linked
    obtain ⟨index, tree, branch, below⟩ := place_of_link unique (place_found found).1 linked
    simp [relation?, below, Place.relation?, Place.down, Tree.relations, branch]

/-- A link says the parent and the key of the node that it leads to. -/
theorem link_iff (unique : document.handles.Nodup) {upper lower : Handle} {relation : String} :
    (relation, lower) ∈ document.links upper ↔
      document.parent? lower = some upper ∧ document.relation? lower = some relation := by
  have child {key : String} {above : Handle} (linked : (key, lower) ∈ document.links above) :
      document.parent? lower = some above := by
    rw [parent_iff unique, children_eq]
    exact List.mem_map_of_mem linked
  constructor
  · intro linked
    exact ⟨child linked, (relation_iff unique).mpr ⟨upper, linked⟩⟩
  · rintro ⟨parent, keyed⟩
    obtain ⟨above, linked⟩ := (relation_iff unique).mp keyed
    obtain rfl := Option.some.inj ((child linked).symm.trans parent)
    exact linked

/-- A node has a parent if some link of the parent leads to it. -/
theorem parent_link_iff (unique : document.handles.Nodup) {upper lower : Handle} :
    document.parent? lower = some upper ↔ ∃ relation, (relation, lower) ∈ document.links upper := by
  rw [parent_iff unique, children_eq]
  simp

/-- The link at the index of a child has the key of the child. -/
theorem link_at (unique : document.handles.Nodup) {upper lower : Handle} {index : Nat}
    {relation : String} (child : document.child? upper index = some lower)
    (keyed : document.relation? lower = some relation) :
    (document.links upper)[index]? = some (relation, lower) := by
  rw [child?, children_eq, List.getElem?_map, Option.map_eq_some_iff] at child
  obtain ⟨⟨key, handle⟩, here, rfl⟩ := child
  have placed := ((link_iff unique).mp (List.mem_of_getElem? here)).2
  obtain rfl := Option.some.inj (placed.symm.trans keyed)
  exact here

/-- No link leads to a node that is no child. -/
theorem no_link {upper lower : Handle} (absent : lower ∉ document.children upper) :
    ∀ link ∈ document.links upper, link.2 ≠ lower := by
  rintro link linked rfl
  rw [children_eq] at absent
  exact absent (List.mem_map_of_mem linked)

/-- Links of which none leads to a node stay as they are when the node is struck. -/
theorem struck_absent {links : List (String × Handle)} {handle : Handle}
    (absent : ∀ link ∈ links, link.2 ≠ handle) :
    links.filter (fun link => link.2 ≠ handle) = links :=
  List.filter_eq_self.mpr fun link member => decide_eq_true (absent link member)

/-- A node without a parent has no key. -/
theorem relation_none (unique : document.handles.Nodup) {handle : Handle}
    (loose : document.parent? handle = none) : document.relation? handle = none := by
  cases keyed : document.relation? handle with
  | none => rfl
  | some relation =>
    obtain ⟨upper, linked⟩ := (relation_iff unique).mp keyed
    rw [((link_iff unique).mp linked).1] at loose
    cases loose

/-- A node has the same key in two documents if the links of one key lead to it in both. -/
theorem relation_ext {before after : Document} (unique : before.handles.Nodup)
    (afterUnique : after.handles.Nodup) {first second : Handle}
    (same : ∀ relation, (∃ upper, (relation, second) ∈ after.links upper) ↔
      ∃ upper, (relation, first) ∈ before.links upper) :
    after.relation? second = before.relation? first := by
  apply Option.ext
  intro relation
  rw [relation_iff afterUnique, relation_iff unique, same]

/-- The keys of the children of a node can be asked of the children. -/
theorem keys_of_children (unique : document.handles.Nodup) (upper : Handle)
    (test : Handle → Bool) :
    ((document.children upper).filter test).filterMap document.relation? =
      ((document.links upper).filter fun link => test link.2).map Prod.fst := by
  rw [children_eq, List.filter_map, List.filterMap_map, ← List.filterMap_eq_map]
  refine List.filterMap_congr fun ⟨relation, lower⟩ member => ?_
  exact (relation_iff unique).mpr ⟨upper, List.mem_of_mem_filter member⟩

end TreeDelta.Document
