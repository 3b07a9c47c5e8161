import TreeDelta.Proofs.Document.Addressed

/-!
# Documents whose nodes are told by their ids

In a document of one tree in which every node has an id of its own, the address of a node is its id,
wherever the node stands. So giving a node another parent leaves the addresses of all nodes as they
were.
-/

namespace TreeDelta.Document

/-- A document of one tree in which every node has an id of its own. -/
structure Identified (document : Document) (whole : Tree Entry) : Prop where
  trees : document.trees = [whole]
  unique : document.handles.Nodup
  named : ∀ node ∈ (whole.map Entry.node).preorder, node.id?.isSome
  distinct : (whole.map Entry.node).DistinctIds

variable {document : Document} {whole : Tree Entry}

/-- A document whose nodes are told by their ids repeats no id. -/
theorem Identified.single (identified : Identified document whole) : Single document whole :=
  ⟨identified.trees, identified.unique, identified.distinct⟩

/-- If every node has an id and no id is repeated, the nodes are told by their ids. -/
theorem Single.identified (single : Single document whole)
    (named : ∀ node ∈ (whole.map Entry.node).preorder, node.id?.isSome) :
    Identified document whole :=
  ⟨single.trees, single.unique, named, single.distinct⟩

/-- The document of a tree in which every node has an id of its own. -/
theorem identified_of_tree {tree : SyntaxTree}
    (named : ∀ node ∈ tree.preorder, node.id?.isSome) (distinct : tree.DistinctIds) :
    Identified (ofTree tree) (withHandles 0 tree) :=
  (single_of_tree distinct).identified (by rwa [without_handles])

/-- The ids below a node are those of the nodes that hang below it. -/
theorem handle_of_id (unique : document.handles.Nodup) {node : Handle} {subtree : SyntaxTree}
    (taken : document.tree? node = some subtree) {id : String} (inside : id ∈ subtree.ids) :
    ∃ lower, document.Hangs node lower ∧ document.id? lower = some id := by
  obtain ⟨place, found, rfl⟩ := Option.map_eq_some_iff.mp taken
  obtain ⟨listed, rfl⟩ := place_found found
  rw [Tree.ids, Tree.preorder_map, List.filterMap_map] at inside
  obtain ⟨entry, entryListed, carried⟩ := List.mem_filterMap.mp inside
  refine ⟨entry.handle, hangs_inside unique listed ?_, ?_⟩
  · rw [tree_rows_handles]
    exact List.mem_map_of_mem entryListed
  · rw [id?, node_of_entry unique listed entryListed]
    exact carried

namespace Identified

/-- A node of the document has an id. -/
theorem id_of_place (identified : Identified document whole) {handle : Handle}
    {place : Place Node} (found : document.syntaxPlace? handle = some place) :
    ∃ id, place.label.id? = some id := by
  have listed := (identified.single.listed_iff _).mpr ⟨handle, found⟩
  exact Option.isSome_iff_exists.mp
    (identified.named _ ((Place.mem_labels_iff _ _).mpr ⟨place, listed, rfl⟩))

/-- A node is addressed by its id. -/
theorem address_of_node (identified : Identified document whole) (handle : Handle) :
    document.address? handle = (document.id? handle).map .named := by
  cases found : document.syntaxPlace? handle with
  | none => simp [address?, id?, node_of_place, found]
  | some place =>
    obtain ⟨id, carried⟩ := identified.id_of_place found
    have here : document.id? handle = some id := by rw [id?, node_of_place, found]; exact carried
    rw [address_of_id here, here, Option.map_some]

/-- A child has an id. -/
theorem id_of_child (identified : Identified document whole) {upper lower : Handle} {index : Nat}
    (child : document.child? upper index = some lower) :
    ∃ node id, document.node? lower = some node ∧ node.id? = some id := by
  obtain ⟨place, tree, -, below⟩ := place_of_child identified.unique child
  obtain ⟨id, carried⟩ := identified.id_of_place below
  exact ⟨_, id, by rw [node_of_place, below, Option.map_some], carried⟩

end Identified

end TreeDelta.Document
