import TreeDelta.Document.Basic
import TreeDelta.Proofs.Named
import TreeDelta.Proofs.Tree.Subtrees

/-!
# Documents as tables

A document can be read as a table with one row for every node: what the node is, and the keys and
handles of its children in order. Rows carry no order and no nesting. When handles are different the
table says all there is to say of a node by its handle, so two documents with the same rows give the
same answers about children, keys and contents, and an operation is described by what it does to
rows.
-/

namespace TreeDelta.Document

/-- What a document says of one node: the node with its handle, and the keys and handles of its
children in order. -/
structure Row where
  entry : Entry
  links : List (String × Handle)
  deriving DecidableEq

namespace Row

/-- The handle of the node of a row. -/
def handle (row : Row) : Handle := row.entry.handle

/-- The keys of a row. -/
def keys (row : Row) : List String := row.links.map Prod.fst

end Row

/-- The key of a branch and the handle of the node that it leads to. -/
def link (branch : String × Tree Entry) : String × Handle := (branch.1, branch.2.label.handle)

/-- The row of the node at the top of a tree. -/
def rowOf (tree : Tree Entry) : Row := ⟨tree.label, tree.branches.map link⟩

/-- The rows of all nodes of a tree. -/
def treeRows (tree : Tree Entry) : List Row := tree.subtrees.map rowOf

/-- The rows of all nodes of a document. -/
def rows (document : Document) : List Row := document.trees.flatMap treeRows

/-- The keys and handles of the children of a node, in order. -/
def links (document : Document) (handle : Handle) : List (String × Handle) :=
  match document.place? handle with
  | some place => (rowOf place.tree).links
  | none => []

/-- The rows of a tree are that of its top and those of its branches. -/
@[simp] theorem tree_rows_node (top : Entry) (branches : List (String × Tree Entry)) :
    treeRows (.node top branches) =
      ⟨top, branches.map link⟩ :: branches.flatMap fun branch => treeRows branch.2 := by
  simp [treeRows, rowOf, List.map_flatMap]

/-- The handles of the rows of a tree are the handles of the tree. -/
theorem tree_rows_handles (tree : Tree Entry) :
    (treeRows tree).map Row.handle = tree.preorder.map Entry.handle := by
  rw [treeRows, ← Tree.subtrees_labels, List.map_map, List.map_map]
  rfl

/-- The keys of a row are the keys of the branches. -/
theorem row_of_keys (tree : Tree Entry) : (rowOf tree).keys = tree.relations := by
  simp [rowOf, Row.keys, Tree.relations, link, Function.comp_def]

/-- The handles in a row are those of the children. -/
theorem row_of_children (tree : Tree Entry) :
    (rowOf tree).links.map Prod.snd = tree.children.map fun child => child.label.handle := by
  simp [rowOf, Tree.children, link, Function.comp_def]

variable (document : Document)

/-- Every place has its row. -/
theorem rows_of_places :
    document.rows = document.places.map fun place => rowOf place.tree := by
  rw [rows, places, List.map_flatMap]
  refine List.flatMap_congr fun tree _ => ?_
  rw [treeRows, Tree.subtrees, List.map_map]
  rfl

/-- Every row has its handle. -/
theorem rows_handles : document.rows.map Row.handle = document.handles := by
  simp only [rows, handles, List.map_flatMap, tree_rows_handles]

/-- Every place has its handle. -/
theorem places_handles :
    document.places.map (fun place => place.label.handle) = document.handles := by
  rw [← rows_handles, rows_of_places, List.map_map]
  rfl

/-- The keys of a node are those of its links. -/
theorem relations_eq (handle : Handle) :
    document.relations handle = (document.links handle).map Prod.fst := by
  unfold relations links
  cases document.place? handle with
  | none => rfl
  | some place => exact (row_of_keys place.tree).symm

/-- The children of a node are those of its links. -/
theorem children_eq (handle : Handle) :
    document.children handle = (document.links handle).map Prod.snd := by
  unfold children links
  cases document.place? handle with
  | none => rfl
  | some place => exact (row_of_children place.tree).symm

variable {document}

/-- A place that is found is one of the places and has the handle. -/
theorem place_found {handle : Handle} {place : Place Entry}
    (found : document.place? handle = some place) :
    place ∈ document.places ∧ place.label.handle = handle :=
  ⟨List.mem_of_find?_eq_some found, by simpa using List.find?_some found⟩

/-- If handles differ, a place is found by its handle. -/
theorem find_place (unique : document.handles.Nodup) {place : Place Entry}
    (listed : place ∈ document.places) :
    document.place? place.label.handle = some place := by
  rw [← places_handles] at unique
  exact Named.find_named (fun place : Place Entry => place.label.handle) unique listed

/-- A node belongs to a document if its handle is one of the handles. -/
theorem has_iff (handle : Handle) : document.has handle = true ↔ handle ∈ document.handles := by
  rw [has, place?, List.find?_isSome, ← places_handles, List.mem_map]
  simp

/-- A node of a document has a place. -/
theorem place_of_handle {handle : Handle} (present : handle ∈ document.handles) :
    ∃ place, document.place? handle = some place :=
  Option.isSome_iff_exists.mp ((has_iff handle).mpr present)

/-- What has a place is a node of the document. -/
theorem handle_of_place {handle : Handle} {place : Place Entry}
    (found : document.place? handle = some place) : handle ∈ document.handles :=
  (has_iff handle).mp (Option.isSome_iff_exists.mpr ⟨place, found⟩)

/-- A row tells the links of its node. -/
theorem links_of_row (unique : document.handles.Nodup) {row : Row}
    (listed : row ∈ document.rows) : document.links row.handle = row.links := by
  rw [rows_of_places] at listed
  obtain ⟨place, placeListed, rfl⟩ := List.mem_map.mp listed
  have found := find_place unique placeListed
  change document.place? (rowOf place.tree).handle = some place at found
  rw [links, found]

/-- A node has a row. -/
theorem row_of_handle {handle : Handle} (present : handle ∈ document.handles) :
    ∃ row ∈ document.rows, row.handle = handle ∧ row.links = document.links handle := by
  obtain ⟨place, found⟩ := place_of_handle present
  refine ⟨rowOf place.tree, ?_, (place_found found).2, by rw [links, found]⟩
  rw [rows_of_places]
  exact List.mem_map_of_mem (place_found found).1

/-- Only nodes of the document have links. -/
theorem handle_of_link {handle child : Handle} {relation : String}
    (linked : (relation, child) ∈ document.links handle) : handle ∈ document.handles := by
  rw [← has_iff, has]
  cases found : document.place? handle with
  | none => simp [links, found] at linked
  | some place => rfl

/-- Whether a document is well formed can be read off its rows. -/
theorem well_formed_iff :
    document.WellFormed ↔ (document.rows.map Row.handle).Nodup ∧
      (∀ row ∈ document.rows, row.handle < document.next) ∧
      document.root ∈ document.rows.map Row.handle ∧
      ∀ row ∈ document.rows, row.keys.Nodup := by
  have keys : (∀ tree ∈ document.trees, DistinctKeys tree) ↔
      ∀ row ∈ document.rows, row.keys.Nodup := by
    constructor
    · intro differ row listed
      rw [rows_of_places] at listed
      obtain ⟨place, placeListed, rfl⟩ := List.mem_map.mp listed
      obtain ⟨tree, member, inside⟩ := List.mem_flatMap.mp placeListed
      rw [row_of_keys]
      exact differ tree member place inside
    · intro differ tree member place inside
      rw [← row_of_keys]
      apply differ
      rw [rows_of_places]
      exact List.mem_map_of_mem (List.mem_flatMap.mpr ⟨tree, member, inside⟩)
  have given : (∀ handle ∈ document.handles, handle < document.next) ↔
      ∀ row ∈ document.rows, row.handle < document.next := by
    simp [← rows_handles]
  rw [rows_handles, ← keys, ← given]
  exact ⟨fun ⟨differ, given, root, keys⟩ => ⟨differ, given, root, keys⟩,
    fun ⟨differ, given, root, keys⟩ => ⟨differ, given, root, keys⟩⟩

end TreeDelta.Document
