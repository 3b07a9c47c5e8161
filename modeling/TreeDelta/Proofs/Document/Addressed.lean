import TreeDelta.Proofs.AddressResolution
import TreeDelta.Proofs.Document.Relocation
import TreeDelta.Proofs.SlotDifference

/-!
# Addresses and slots in documents

A node of a document is addressed by its id or, if it has none, by its index below the address of
its parent, and whoever has a parent has a slot, at the index below that address. In a document of
one tree without repeated ids an address is that of one node only, and the addresses of the tree's
slots can be read off the children of the document's nodes. Giving a node another parent leaves such
a document.
-/

namespace TreeDelta.Document

/-- The address of a node. -/
def address? (document : Document) (handle : Handle) : Option Address :=
  (document.syntaxPlace? handle).map Address.ofPlace

/-- The slot of a node. -/
def slot? (document : Document) (handle : Handle) : Option Slot :=
  (document.syntaxPlace? handle).bind Slot.ofLeft?

/-- A document of one tree in which no id is repeated. -/
structure Single (document : Document) (whole : Tree Entry) : Prop where
  trees : document.trees = [whole]
  unique : document.handles.Nodup
  distinct : (whole.map Entry.node).DistinctIds

variable {document : Document} {whole : Tree Entry}

/-- The document of a tree without repeated ids. -/
theorem single_of_tree {tree : SyntaxTree} (distinct : tree.DistinctIds) :
    Single (ofTree tree) (withHandles 0 tree) where
  trees := rfl
  unique := by
    rw [of_tree_handles]
    exact List.nodup_range'
  distinct := by rwa [without_handles]

/-! ### What a child says of its place -/

/-- What a node carries stands at its place. -/
theorem node_of_place (handle : Handle) :
    document.node? handle = (document.syntaxPlace? handle).map Place.label := by
  rw [node?, syntaxPlace?, Option.map_map]
  refine congrArg (Option.map · (document.place? handle)) (funext fun place => ?_)
  exact (Tree.label_map _ _).symm

/-- Only what carries something has an address. -/
theorem address_absent {handle : Handle} (absent : document.node? handle = none) :
    document.address? handle = none := by
  rw [node_of_place, Option.map_eq_none_iff] at absent
  rw [address?, absent, Option.map_none]

/-- A node with an id is addressed by the id. -/
theorem address_of_id {handle : Handle} {id : String} (carried : document.id? handle = some id) :
    document.address? handle = some (.named id) := by
  rw [id?, node_of_place] at carried
  obtain ⟨node, found, nodeId⟩ := Option.bind_eq_some_iff.mp carried
  obtain ⟨place, placeFound, rfl⟩ := Option.map_eq_some_iff.mp found
  rw [address?, placeFound, Option.map_some, Address.of_place_named nodeId]

/-- A child stands one step below its parent. -/
theorem place_of_child (unique : document.handles.Nodup) {upper lower : Handle} {index : Nat}
    (child : document.child? upper index = some lower) :
    ∃ above tree, document.syntaxPlace? upper = some above ∧
      document.syntaxPlace? lower = some (above.down index tree) := by
  obtain ⟨place, tree, found, below⟩ := (child_at_iff unique).mp child
  refine ⟨place.map Entry.node, tree.map Entry.node, ?_, ?_⟩
  · rw [syntaxPlace?, found, Option.map_some]
  · rw [syntaxPlace?, below]
    rfl

section Child

variable {upper lower : Handle} {index : Nat} {node : Node} {above : Address}

/-- A child carries something. -/
theorem node_of_child (unique : document.handles.Nodup)
    (child : document.child? upper index = some lower) :
    ∃ node, document.node? lower = some node := by
  obtain ⟨_, _, _, below⟩ := place_of_child unique child
  exact ⟨_, by rw [node_of_place, below, Option.map_some]⟩

/-- A child without an id is addressed by its index below the address of its parent. -/
theorem address_of_child (unique : document.handles.Nodup)
    (child : document.child? upper index = some lower) (carried : document.node? lower = some node)
    (unnamed : node.id? = none) (addressed : document.address? upper = some above) :
    document.address? lower = some (Address.step node index above) := by
  obtain ⟨place, tree, found, below⟩ := place_of_child unique child
  rw [node_of_place, below] at carried
  obtain rfl := Option.some.inj carried
  rw [address?, found] at addressed
  obtain rfl := Option.some.inj addressed
  rw [address?, below]
  exact congrArg some (Address.of_place_below unnamed)

/-- The parent of a child has an address. -/
theorem address_of_parent (unique : document.handles.Nodup)
    (child : document.child? upper index = some lower) :
    ∃ above, document.address? upper = some above := by
  obtain ⟨place, _, found, _⟩ := place_of_child unique child
  exact ⟨_, by rw [address?, found, Option.map_some]⟩

/-- A child has the slot at its index below the address of its parent. -/
theorem slot_of_child (unique : document.handles.Nodup)
    (child : document.child? upper index = some lower) (carried : document.node? lower = some node)
    (addressed : document.address? upper = some above) :
    ∃ slot, document.slot? lower = some slot ∧ slot.address = Address.step node index above := by
  obtain ⟨place, tree, found, below⟩ := place_of_child unique child
  rw [node_of_place, below] at carried
  obtain rfl := Option.some.inj carried
  rw [address?, found] at addressed
  obtain rfl := Option.some.inj addressed
  exact ⟨_, by rw [slot?, below]; rfl, rfl⟩

/-- A node with a slot is a child, and the slot is the one that it has as a child. -/
theorem child_of_slot (unique : document.handles.Nodup) {slot : Slot}
    (slotted : document.slot? lower = some slot) :
    ∃ upper index node above, document.child? upper index = some lower ∧
      document.node? lower = some node ∧ document.address? upper = some above ∧
        slot.address = Address.step node index above := by
  obtain ⟨place, placeFound, slotted⟩ := Option.bind_eq_some_iff.mp slotted
  obtain ⟨⟨tree, above⟩, found, rfl⟩ := Option.map_eq_some_iff.mp placeFound
  cases above with
  | nil => simp [Place.map, Slot.ofLeft?] at slotted
  | cons up further =>
    obtain rfl := Option.some.inj slotted
    have parentFound := find_place unique (parent_listed (place_found found).1).1
    refine ⟨_, up.index, _, _, (child_at_iff unique).mpr ⟨_, tree, parentFound, found⟩, ?_, ?_, rfl⟩
    · rw [node_of_place, placeFound, Option.map_some]
    · rw [address?, syntaxPlace?, parentFound]
      rfl

end Child

namespace Single

/-! ### Documents of one tree -/

/-- The places of the document are those of its tree. -/
theorem places (single : Single document whole) :
    document.places = (Place.top whole).preorder := by
  simp [Document.places, single.trees]

/-- The places of the tree are those at which the document's nodes stand. -/
theorem listed_iff (single : Single document whole) (place : Place Node) :
    place ∈ (Place.top (whole.map Entry.node)).preorder ↔
      ∃ handle, document.syntaxPlace? handle = some place := by
  rw [Place.preorder_map, ← single.places, List.mem_map]
  constructor
  · rintro ⟨placed, listed, rfl⟩
    exact ⟨_, by rw [syntaxPlace?, find_place single.unique listed, Option.map_some]⟩
  · rintro ⟨handle, found⟩
    obtain ⟨placed, placedFound, rfl⟩ := Option.map_eq_some_iff.mp found
    exact ⟨placed, (place_found placedFound).1, rfl⟩

/-- Different nodes have different addresses: an address leads to one place only, and a place is
that of one node only. -/
theorem same_handle (single : Single document whole) {first second : Handle} {address : Address}
    (firstAddress : document.address? first = some address)
    (secondAddress : document.address? second = some address) : first = second := by
  have resolved {handle : Handle} (addressed : document.address? handle = some address) :
      ∃ place ∈ (Place.top whole).preorder, place.label.handle = handle ∧
        Address.resolve? (Place.top (whole.map Entry.node)) address =
          some (place.map Entry.node) := by
    obtain ⟨_, mapped, rfl⟩ := Option.map_eq_some_iff.mp addressed
    have listed := (single.listed_iff _).mpr ⟨handle, mapped⟩
    obtain ⟨place, found, rfl⟩ := Option.map_eq_some_iff.mp mapped
    exact ⟨place, single.places ▸ (place_found found).1, (place_found found).2,
      (Address.of_place_leads _).resolve single.distinct listed⟩
  obtain ⟨place, listed, rfl, found⟩ := resolved firstAddress
  obtain ⟨other, otherListed, rfl, otherFound⟩ := resolved secondAddress
  have samePath := congrArg Place.path (Option.some.inj (found.symm.trans otherFound))
  rw [Place.path_map, Place.path_map] at samePath
  rw [Place.Reaches.eq_of_path ((Place.mem_preorder_iff _ _).mp listed)
    ((Place.mem_preorder_iff _ _).mp otherListed) samePath]

/-- The slot of a node is that of the place in the tree at which the node stands. -/
theorem place_of_slot (single : Single document whole) {handle : Handle} {slot : Slot}
    (slotted : document.slot? handle = some slot) :
    ∃ place ∈ (Place.top (whole.map Entry.node)).preorder, Slot.ofLeft? place = some slot ∧
      document.node? handle = some place.label := by
  obtain ⟨place, found, slotted⟩ := Option.bind_eq_some_iff.mp slotted
  exact ⟨place, (single.listed_iff place).mpr ⟨handle, found⟩, slotted,
    by rw [node_of_place, found, Option.map_some]⟩

/-- The addresses of the tree's slots are those of the children of the document's nodes. -/
theorem mem_addresses (single : Single document whole) (address : Address) :
    address ∈ Extraction.leftAddresses (Place.top (whole.map Entry.node)) ↔
      ∃ upper index lower node above, document.child? upper index = some lower ∧
        document.node? lower = some node ∧ document.address? upper = some above ∧
          address = Address.step node index above := by
  simp only [Extraction.leftAddresses, List.mem_map, List.mem_filterMap]
  constructor
  · rintro ⟨slot, ⟨place, listed, slotted⟩, rfl⟩
    obtain ⟨lower, found⟩ := (single.listed_iff place).mp listed
    obtain ⟨upper, index, node, above, parts⟩ :=
      child_of_slot single.unique (Option.bind_eq_some_iff.mpr ⟨place, found, slotted⟩)
    exact ⟨upper, index, lower, node, above, parts⟩
  · rintro ⟨upper, index, lower, node, above, child, carried, addressed, rfl⟩
    obtain ⟨slot, slotted, address⟩ := slot_of_child single.unique child carried addressed
    obtain ⟨place, listed, slotted, -⟩ := single.place_of_slot slotted
    exact ⟨slot, ⟨place, listed, slotted⟩, address⟩

/-- The node at the top of the tree stands at the top. -/
theorem top_found (single : Single document whole) :
    document.place? whole.label.handle = some (Place.top whole) := by
  have listed : Place.top whole ∈ document.places :=
    single.places ▸ (Place.mem_preorder_iff _ _).mpr .here
  exact find_place single.unique listed

/-- The address of the top is a matter of its id. -/
theorem address_of_top (single : Single document whole) :
    document.address? whole.label.handle =
      some ((whole.label.node.id?.map Address.named).getD .top) := by
  rw [address?, syntaxPlace?, single.top_found, ← Tree.label_map Entry.node whole,
    ← Address.of_place_whole]
  rfl

/-- Where the top is the root, the whole tree is below the root. -/
theorem tree_of_root (single : Single document whole)
    (root : whole.label.handle = document.root) :
    document.tree? document.root = some (whole.map Entry.node) := by
  rw [tree?, ← root, single.top_found]
  rfl

/-- Every node hangs below the top. -/
theorem hangs_below_top (single : Single document whole) {handle : Handle}
    (present : handle ∈ document.handles) : document.Hangs whole.label.handle handle := by
  refine hangs_inside single.unique (place_found single.top_found).1 ?_
  rw [← rows_handles, rows, single.trees, List.flatMap_singleton] at present
  exact present

end Single

/-- The rows of a document of one tree carry the nodes of the tree. -/
theorem nodes_of_tree (trees : document.trees = [whole]) :
    document.rows.map (fun row => row.entry.node) = (whole.map Entry.node).preorder := by
  rw [rows, trees, List.flatMap_singleton, treeRows, List.map_map, ← Tree.subtrees_labels,
    Tree.subtrees_map, List.map_map]
  refine List.map_congr_left fun subtree _ => ?_
  simp [rowOf]

/-- A document of one tree without repeated ids stays one when a node of its tree is given another
parent. It has the same nodes and the same top. -/
theorem Single.add (single : Single document whole) {parent child source : Handle}
    {index : Nat} {relation? : Option String} (placed : document.parent? child = some source)
    (clear : document.addFault? parent index relation? child = none) (relation : String) :
    ∃ grown,
      Single ((document.detach child).attach parent index relation child) grown ∧
      (grown.map Entry.node).preorder.Perm (whole.map Entry.node).preorder ∧
      grown.label = whole.label := by
  have unique := single.unique
  obtain ⟨grown, trees, label⟩ := add_single unique clear relation single.trees placed
  have rows := (add_rows unique clear relation).map fun row => row.entry.node
  simp only [List.map_map, Function.comp_def, Row.relink_entry, Row.without_entry] at rows
  rw [nodes_of_tree trees, nodes_of_tree single.trees] at rows
  exact ⟨grown, ⟨trees, (add_handles unique clear relation).nodup_iff.mpr unique,
    (rows.filterMap Node.id?).nodup_iff.mpr single.distinct⟩, rows, label⟩

end TreeDelta.Document
