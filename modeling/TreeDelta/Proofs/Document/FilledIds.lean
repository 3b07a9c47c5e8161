import TreeDelta.Proofs.Document.Numbered
import TreeDelta.Proofs.Document.Relabelled
import TreeDelta.Proofs.Document.Steps
import TreeDelta.Proofs.RepeatedIds

/-!
# Filled ids

The nodes that have no id get one: a text and the number of the nodes before them that had none
either. The numbers are different, so no two of the given ids are the same. The ids that are there
already are not looked at, and one of them may be given to a second node. Apart from this the ids
stay distinct: they do exactly if none of the given ids was there before, and then the tree can be
indexed and paired by id.
-/

namespace TreeDelta.Document

open Editing

/-- An entry after a step that gives an id with a number to the node with a handle. -/
def giveId (stem : String) (entry : Entry) (mark : Handle × Nat) : Entry :=
  if entry.handle = mark.1 then
    { entry with node := { entry.node with id? := some (stem ++ toString mark.2) } }
  else entry

/-- An entry after the steps that give ids to nodes without one. -/
def giveIds (stem : String) (document : Document) (entry : Entry) : Entry :=
  (withoutId document).zipIdx.foldl (giveId stem) entry

/-- The ids that are given to a number of nodes. -/
def givenIds (stem : String) (count : Nat) : List String :=
  (List.range count).map fun number => stem ++ toString number

variable {document : Document}

/-- Filling in ids changes entries, each on its own. -/
theorem perform_fill_ids (stem : String) (document : Document) :
    perform (fillIds stem) document = (.ok ⟨⟩, document.relabel (giveIds stem document)) := by
  rw [fillIds, perform_modify]
  exact congrArg (Prod.mk _) (fold_relabel (giveId stem) (withoutId document).zipIdx document)

/-- Giving ids to nodes leaves handles alone. -/
theorem give_id_handle (stem : String) (entry : Entry) (marks : List (Handle × Nat)) :
    (marks.foldl (giveId stem) entry).handle = entry.handle := by
  induction marks generalizing entry with
  | nil => rfl
  | cons mark rest inductionHypothesis =>
    rw [List.foldl_cons, inductionHypothesis, giveId]
    split <;> rfl

/-- Giving ids to all nodes without one leaves handles alone. -/
theorem give_ids_handle (stem : String) (document : Document) (entry : Entry) :
    (giveIds stem document entry).handle = entry.handle :=
  give_id_handle stem entry (withoutId document).zipIdx

/-- An entry stays as it is when ids are given to other nodes. -/
theorem give_id_elsewhere (stem : String) {entry : Entry} {marks : List (Handle × Nat)}
    (apart : entry.handle ∉ marks.map Prod.fst) : marks.foldl (giveId stem) entry = entry := by
  induction marks with
  | nil => rfl
  | cons mark rest inductionHypothesis =>
    rw [List.map_cons, List.mem_cons, not_or] at apart
    rw [List.foldl_cons, giveId, if_neg apart.1]
    exact inductionHypothesis apart.2

/-- A node that is marked once gets the id with the number of its mark. -/
theorem give_id_marked (stem : String) {entry : Entry} {marks : List (Handle × Nat)}
    (once : (marks.map Prod.fst).Nodup) {number : Nat} (marked : (entry.handle, number) ∈ marks) :
    marks.foldl (giveId stem) entry =
      { entry with node := { entry.node with id? := some (stem ++ toString number) } } := by
  induction marks with
  | nil => cases marked
  | cons mark rest inductionHypothesis =>
    rw [List.map_cons, List.nodup_cons] at once
    rcases List.mem_cons.mp marked with rfl | later
    · rw [List.foldl_cons, giveId, if_pos rfl]
      exact give_id_elsewhere stem once.1
    · have different : entry.handle ≠ mark.1 := fun same =>
        once.1 (same ▸ List.mem_map_of_mem later)
      rw [List.foldl_cons, giveId, if_neg different]
      exact inductionHypothesis once.2 later

/-- A node that has an id keeps what it carries. -/
theorem give_ids_named (stem : String) {entry : Entry} {id : String}
    (named : document.id? entry.handle = some id) : giveIds stem document entry = entry := by
  refine give_id_elsewhere stem fun marked => ?_
  rw [List.zipIdx_map_fst, withoutId, List.mem_filter, ← id?, named] at marked
  cases marked.2

/-- A node below the root that has no id gets one with its number. -/
theorem give_ids_numbered (unique : document.handles.Nodup) (stem : String) {entry : Entry}
    {number : Nat} (numbered : (withoutId document)[number]? = some entry.handle) :
    giveIds stem document entry =
      { entry with node := { entry.node with id? := some (stem ++ toString number) } } := by
  refine give_id_marked stem ?_ (List.mk_mem_zipIdx_iff_getElem?.mpr numbered)
  rw [List.zipIdx_map_fst]
  exact (descendants_nodup unique document.root).filter _

section Root

variable {root : Place Entry}

/-- The nodes without an id are those of the entries below the root that carry none. -/
theorem without_id_eq (unique : document.handles.Nodup)
    (found : document.place? document.root = some root) :
    withoutId document =
      (root.tree.preorder.filter fun entry => entry.node.id?.isNone).map Entry.handle := by
  rw [withoutId, descendants, found]
  simp only [List.filter_map]
  refine congrArg (List.map Entry.handle) (List.filter_congr fun entry inside => ?_)
  simp [node_of_entry unique (place_found found).1 inside]

/-- The ids of a tree are those of its entries. -/
theorem ids_of_entries (tree : Tree Entry) :
    (tree.map Entry.node).ids = tree.preorder.filterMap fun entry => entry.node.id? := by
  rw [Tree.ids, Tree.preorder_map, List.filterMap_map]
  rfl

/-- The entries without an id get the given ids, in order. -/
theorem unnamed_get_given (unique : document.handles.Nodup) (stem : String) {entries : List Entry}
    (unnamed : withoutId document = entries.map Entry.handle) :
    (entries.filterMap fun entry => (giveIds stem document entry).node.id?) =
      givenIds stem entries.length := by
  have numbered (mark : Entry × Nat) (marked : mark ∈ entries.zipIdx) :
      (giveIds stem document mark.1).node.id? = some (stem ++ toString mark.2) := by
    have here : (withoutId document)[mark.2]? = some mark.1.handle := by
      rw [unnamed, List.getElem?_map, List.mk_mem_zipIdx_iff_getElem?.mp marked, Option.map_some]
    rw [give_ids_numbered unique stem here]
  calc
    _ = (entries.zipIdx.map Prod.fst).filterMap
          fun entry => (giveIds stem document entry).node.id? := by rw [List.zipIdx_map_fst]
    _ = entries.zipIdx.filterMap fun mark => some (stem ++ toString mark.2) := by
      rw [List.filterMap_map]
      exact List.filterMap_congr numbered
    _ = (entries.zipIdx.map Prod.snd).map fun number => stem ++ toString number := by
      rw [List.filterMap_eq_map', List.map_map]
      rfl
    _ = givenIds stem entries.length := by
      rw [List.zipIdx_map_snd, givenIds, List.range_eq_range']

/-- After filling in, the ids below the root are those that have been there and the given ones. -/
theorem filled_ids (unique : document.handles.Nodup)
    (found : document.place? document.root = some root) (stem : String) :
    ((root.tree.map (giveIds stem document)).map Entry.node).ids.Perm
      ((root.tree.map Entry.node).ids ++ givenIds stem (withoutId document).length) := by
  let unnamed (entry : Entry) : Bool := entry.node.id?.isNone
  have given := without_id_eq unique found
  have kept : ((root.tree.preorder.filter fun entry => !unnamed entry).filterMap
      fun entry => (giveIds stem document entry).node.id?) = (root.tree.map Entry.node).ids := by
    rw [ids_of_entries, List.filterMap_filter]
    refine List.filterMap_congr fun entry inside => ?_
    cases named : entry.node.id? with
    | none => simp [unnamed, named]
    | some id =>
      have carried : document.id? entry.handle = some id :=
        (id_of_node (node_of_entry unique (place_found found).1 inside)).trans named
      simp [unnamed, named, give_ids_named stem carried]
  rw [ids_of_entries, Tree.preorder_map, List.filterMap_map, ← kept, given, List.length_map,
    ← unnamed_get_given unique stem given, ← List.filterMap_append]
  exact ((List.filter_append_perm unnamed root.tree.preorder).symm.trans
    List.perm_append_comm).filterMap _

/-- The ids that are given are different. -/
theorem given_ids_nodup (stem : String) (count : Nat) : (givenIds stem count).Nodup := by
  refine List.nodup_range.map fun first second same => Named.numerals_differ ?_
  exact (String.append_right_inj stem).mp same

/-- After filling in, ids are distinct exactly if none of the given ids has been there. -/
theorem filled_distinct_iff (unique : document.handles.Nodup)
    (found : document.place? document.root = some root)
    (distinct : (root.tree.map Entry.node).DistinctIds) (stem : String) :
    ((root.tree.map (giveIds stem document)).map Entry.node).DistinctIds ↔
      ∀ id ∈ givenIds stem (withoutId document).length, id ∉ (root.tree.map Entry.node).ids := by
  rw [Tree.DistinctIds, (filled_ids unique found stem).nodup_iff, List.nodup_append_comm,
    List.nodup_append]
  constructor
  · intro apart id given there
    exact apart.2.2 id given id there rfl
  · intro apart
    refine ⟨given_ids_nodup stem _, distinct, fun id given other there same => ?_⟩
    exact apart id given (same ▸ there)

end Root

/-- What filling in ids does to the nodes of a document. -/
structure IdsFilled (stem : String) (before after : Document) : Prop where
  /-- The tree has the same nodes. -/
  descendants : after.descendants after.root = before.descendants before.root
  /-- Every node of the tree has an id. -/
  named : ∀ handle ∈ after.descendants after.root, ∃ id, after.id? handle = some id
  /-- A node that has had an id carries what it has carried. -/
  kept : ∀ handle id, before.id? handle = some id → after.node? handle = before.node? handle
  /-- A node that has had none gets the text and its number among those, and keeps the rest. -/
  numbered : ∀ (number : Nat) (handle : Handle), (withoutId before)[number]? = some handle →
    after.node? handle = (before.node? handle).map fun node =>
      { node with id? := some (stem ++ toString number) }

/-- Filling in ids gives every node of the tree without an id the one with its number. -/
theorem relabel_fills (unique : document.handles.Nodup) (stem : String) :
    IdsFilled stem document (document.relabel (giveIds stem document)) := by
  have keeps := give_ids_handle stem document
  have descendants : (document.relabel (giveIds stem document)).descendants document.root =
      document.descendants document.root := relabel_descendants keeps document.root
  have kept (handle : Handle) (id : String) (carried : document.id? handle = some id) :
      (document.relabel (giveIds stem document)).node? handle = document.node? handle := by
    rw [relabel_node keeps, node?]
    refine Option.map_congr fun place found => ?_
    obtain ⟨-, rfl⟩ := place_found found
    exact congrArg Entry.node (give_ids_named stem carried)
  have numbered (number : Nat) (handle : Handle)
      (counted : (withoutId document)[number]? = some handle) :
      (document.relabel (giveIds stem document)).node? handle =
        (document.node? handle).map fun node =>
          { node with id? := some (stem ++ toString number) } := by
    rw [relabel_node keeps, node?, Option.map_map]
    refine Option.map_congr fun place found => ?_
    obtain ⟨-, rfl⟩ := place_found found
    exact congrArg Entry.node (give_ids_numbered unique stem counted)
  refine ⟨descendants, fun handle inside => ?_, kept, numbered⟩
  replace inside : handle ∈ document.descendants document.root := descendants ▸ inside
  cases carried : document.id? handle with
  | some id => exact ⟨id, by rw [id?, kept handle id carried, ← id?, carried]⟩
  | none =>
    have without : handle ∈ withoutId document :=
      List.mem_filter.mpr ⟨inside, by rw [← id?, carried]; rfl⟩
    obtain ⟨number, counted⟩ := List.mem_iff_getElem?.mp without
    obtain ⟨place, found⟩ := place_of_descendant unique inside
    exact ⟨_, by rw [id?, numbered number handle counted, node?, found]; rfl⟩

/-- An edit script is extracted by id exactly if neither tree repeats an id. -/
theorem script_succeeds_iff (left right : Place Node) :
    (∃ script, Extraction.byId left right = .ok script) ↔
      left.tree.DistinctIds ∧ right.tree.DistinctIds := by
  rw [← Correspondence.by_id_succeeds_iff, Extraction.byId]
  cases Correspondence.byId left right <;> simp [Except.map]

/-- Filling in ids succeeds and gives every node of the tree without an id the one with its number;
the other nodes keep theirs. The ids of a tree that has repeated none stay distinct exactly if none
of the given ids has been there before. Exactly then the tree is indexed by id, and an edit script
is extracted between it and any tree that repeats no id.

The root afterwards is the tree from before with the given ids. Whether its ids are distinct decides
about the index and about both scripts, because the other tree repeats none. -/
theorem filled_ids_distinct_unless_taken (wellFormed : document.WellFormed) {root : Place Node}
    (found : document.syntaxPlace? document.root = some root) (distinct : root.tree.DistinctIds)
    (stem : String) :
    let untaken := ∀ id ∈ givenIds stem (withoutId document).length, id ∉ root.tree.ids
    ∃ after filled, perform (fillIds stem) document = (.ok ⟨⟩, after) ∧
      IdsFilled stem document after ∧ after.syntaxPlace? after.root = some filled ∧
      (filled.tree.DistinctIds ↔ untaken) ∧
      ((∃ index, Correspondence.idIndex filled = .ok index) ↔ untaken) ∧
      ∀ other : Place Node, other.tree.DistinctIds →
        ((∃ script, Extraction.byId filled other = .ok script) ↔ untaken) ∧
        ((∃ script, Extraction.byId other filled = .ok script) ↔ untaken) := by
  intro untaken
  have unique := wellFormed.handlesDiffer
  obtain ⟨top, topFound, rfl⟩ := Option.map_eq_some_iff.mp found
  let after := document.relabel (giveIds stem document)
  let filled := (top.map (giveIds stem document)).map Entry.node
  have keeps := give_ids_handle stem document
  have filledFound : after.syntaxPlace? after.root = some filled := by
    have here : after.place? after.root = _ := relabel_place keeps document.root
    rw [syntaxPlace?, here, topFound]
    rfl
  have filledDistinct : filled.tree.DistinctIds ↔ untaken :=
    filled_distinct_iff unique topFound distinct stem
  refine ⟨after, filled, perform_fill_ids stem document, relabel_fills unique stem, filledFound,
    filledDistinct, ?_, fun other otherDistinct => ⟨?_, ?_⟩⟩
  · rw [Correspondence.index_succeeds_iff, filledDistinct]
  · rw [script_succeeds_iff, filledDistinct, and_iff_left otherDistinct]
  · rw [script_succeeds_iff, filledDistinct, and_iff_right otherDistinct]

/-- A list without an id gets the id n0, and its item keeps its own. -/
theorem item_keeps_other_id :
    let item : Node := { Node.bare "item" with id? := some "a" }
    let document := ofTree (.node (Node.bare "list") [("0", .leaf item)])
    ∃ after, perform (fillIds "n") document = (.ok ⟨⟩, after) ∧ after.id? 0 = some "n0" ∧
      after.id? 1 = some "a" ∧
      ∃ filled, after.syntaxPlace? after.root = some filled ∧ filled.tree.DistinctIds := by
  intro item document
  have wellFormed : document.WellFormed :=
    of_tree_well_formed ((Tree.keys_differ_node _ _).mpr ⟨by simp, by
      simpa using Tree.keys_differ_leaf item⟩)
  obtain ⟨after, filled, performed, fills, filledFound, distinct, -⟩ :=
    filled_ids_distinct_unless_taken wellFormed rfl (by decide) "n"
  have given : after.id? 0 = some "n0" := by
    rw [id?, fills.numbered 0 0 rfl]
    rfl
  have kept : after.id? 1 = some "a" := by
    rw [id?, fills.kept 1 "a" rfl]
    rfl
  exact ⟨after, performed, given, kept, filled, filledFound, distinct.mpr (by decide)⟩

/-- If the item of a list without an id has the id n0, the list gets the same one. The tree has
repeated no id and does so afterwards, and no edit script is extracted by id. -/
theorem item_id_given_again :
    let item : Node := { Node.bare "item" with id? := some "n0" }
    let tree : SyntaxTree := .node (Node.bare "list") [("0", .leaf item)]
    let after := (perform (fillIds "n") (ofTree tree)).2
    (ofTree tree).tree? (ofTree tree).root = some tree ∧ tree.DistinctIds ∧
      ∃ filled, after.syntaxPlace? after.root = some filled ∧ ¬ filled.tree.DistinctIds ∧
        Correspondence.idIndex filled = .error (.duplicateId "n0") ∧
        Extraction.byId filled filled = .error (.duplicateId "n0") := by
  intro item tree after
  let filled := Place.top (Tree.node { Node.bare "list" with id? := some "n0" } [("0", .leaf item)])
  exact ⟨rfl, by decide, filled, by rfl, by decide, by rfl, by rfl⟩

end TreeDelta.Document
