import TreeDelta.Proofs.Document.Operations

/-!
# Giving a node another parent

A node that is added below another one has been taken out from where it was, so adding it moves it.
Three things can be said of the document afterwards. Every node carries what it has carried. The
children are the same, in the same order, but for the moved node, which is gone from its old parent
and stands at the index below its new one. And a document of one tree is again a document of one
tree with the same top.
-/

namespace TreeDelta.Document

variable {document : Document}

/-- The id that a node carries. -/
def id? (document : Document) (handle : Handle) : Option String :=
  (document.node? handle).bind Node.id?

/-- The id of a node is that of what it carries. -/
theorem id_of_node {handle : Handle} {node : Node} (carried : document.node? handle = some node) :
    document.id? handle = node.id? := by
  rw [id?, carried, Option.bind_some]

/-! ### Children and their places -/

/-- The child at an index is found one step below its parent. -/
theorem child_at_iff (unique : document.handles.Nodup) {upper lower : Handle} {index : Nat} :
    document.child? upper index = some lower ↔
      ∃ place tree, document.place? upper = some place ∧
        document.place? lower = some (Place.down place index tree) := by
  constructor
  · intro child
    rw [child?, children] at child
    cases found : document.place? upper with
    | none => simp [found] at child
    | some place =>
      simp only [found, List.getElem?_map, Option.map_eq_some_iff] at child
      obtain ⟨tree, branch, rfl⟩ := child
      obtain ⟨whole, member, inside⟩ := List.mem_flatMap.mp (place_found found).1
      have listed : place.down index tree ∈ document.places :=
        List.mem_flatMap.mpr ⟨whole, member, Place.listed_down _ _ _ _ _ inside branch⟩
      exact ⟨place, tree, rfl, find_place unique listed⟩
  · rintro ⟨place, tree, found, below⟩
    obtain ⟨listed, rfl⟩ := place_found below
    have branch : place.tree.children[index]? = some tree := (parent_listed listed).2
    simp [child?, children, found, branch, Place.down, Place.label]

/-- A node is the child at an index of its parent. -/
theorem child_iff (unique : document.handles.Nodup) {upper lower : Handle} {index : Nat} :
    document.child? upper index = some lower ↔
      document.parent? lower = some upper ∧ document.index? lower = some index := by
  rw [child_at_iff unique]
  constructor
  · rintro ⟨place, tree, found, below⟩
    rw [parent?, index?, below, ← (place_found found).2]
    exact ⟨rfl, rfl⟩
  · rintro ⟨parent, position⟩
    obtain ⟨above, parentPlace, rfl⟩ := Option.map_eq_some_iff.mp parent
    obtain ⟨⟨tree, steps⟩, found, up⟩ := Option.bind_eq_some_iff.mp parentPlace
    cases steps with
    | nil => simp [Place.parent?] at up
    | cons step further =>
      obtain rfl : Place.mk step.tree further = above := Option.some.inj up
      obtain rfl : step.index = index := by simpa [index?, found, Place.index?] using position
      exact ⟨_, tree, find_place unique (parent_listed (place_found found).1).1, found⟩

/-- A node with a parent stands at an index below it. -/
theorem child_of_parent (unique : document.handles.Nodup) {upper lower : Handle}
    (parent : document.parent? lower = some upper) :
    ∃ index, document.child? upper index = some lower :=
  List.getElem?_of_mem ((parent_iff unique upper lower).mp parent)

/-- What a row says its node carries. -/
theorem node_of_row (unique : document.handles.Nodup) {row : Row} (listed : row ∈ document.rows) :
    document.node? row.handle = some row.entry.node := by
  rw [rows_of_places] at listed
  obtain ⟨place, placeListed, rfl⟩ := List.mem_map.mp listed
  have found := find_place unique placeListed
  change document.place? (rowOf place.tree).handle = some place at found
  rw [node?, found]
  rfl

/-- An entry below a place tells what the node with its handle carries. -/
theorem node_of_entry (unique : document.handles.Nodup) {place : Place Entry}
    (listed : place ∈ document.places) {entry : Entry} (inside : entry ∈ place.tree.preorder) :
    document.node? entry.handle = some entry.node := by
  rw [← Tree.subtrees_labels] at inside
  obtain ⟨lower, lowerListed, rfl⟩ := List.mem_map.mp inside
  obtain ⟨whole, member, inTree⟩ := List.mem_flatMap.mp listed
  have row : rowOf lower ∈ document.rows := List.mem_flatMap.mpr
    ⟨whole, member, List.mem_map_of_mem (Tree.subtrees_trans (List.mem_map_of_mem inTree)
      lowerListed)⟩
  exact node_of_row unique row

/-- Only nodes of the document carry anything. -/
theorem node_absent {handle : Handle} (absent : handle ∉ document.handles) :
    document.node? handle = none := by
  have missing : document.place? handle = none := by
    rw [← has_iff, has] at absent
    simpa using absent
  rw [node?, missing]
  rfl

/-- A change of links changes nothing of what the nodes carry. -/
theorem nodes_of_rows {before after : Document} {change : Row → Row}
    (unique : before.handles.Nodup) (keeps : ∀ row, (change row).entry = row.entry)
    (rows : after.rows.Perm (before.rows.map change)) (handle : Handle) :
    after.node? handle = before.node? handle := by
  have handles := handles_of_rows (fun row => congrArg Entry.handle (keeps row)) rows
  by_cases present : handle ∈ before.handles
  · obtain ⟨row, listed, rfl, -⟩ := row_of_handle present
    have changed := node_of_row (handles.nodup_iff.mpr unique)
      (rows.mem_iff.mpr (List.mem_map_of_mem listed))
    rw [Row.handle, keeps] at changed
    rw [node_of_row unique listed, ← changed]
    rfl
  · rw [node_absent present, node_absent fun again => present (handles.mem_iff.mp again)]

/-! ### What adding a node moves -/

section Added

variable {parent child : Handle} {index : Nat} {relation? : Option String}

/-- Adding a node strikes it from its old parent and puts it into the links of its new one. -/
theorem add_rows (unique : document.handles.Nodup)
    (clear : document.addFault? parent index relation? child = none) (relation : String) :
    ((document.detach child).attach parent index relation child).rows.Perm
      (document.rows.map fun row => (row.without child).relink parent fun links =>
        links.insertIdx index (relation, child)) := by
  obtain ⟨tree, loose, rfl, present, outside, inside⟩ := add_ready unique clear
  have detached := (detach_handles unique tree.label.handle).nodup_iff.mpr unique
  have relinked := (detach_rows unique tree.label.handle).map
    (Row.relink parent fun links => links.insertIdx index (relation, tree.label.handle))
  rw [List.map_map] at relinked
  exact (attach_rows detached loose present outside inside relation).trans relinked

/-- Adding a node leaves what the nodes carry. -/
theorem add_nodes (unique : document.handles.Nodup)
    (clear : document.addFault? parent index relation? child = none) (relation : String)
    (handle : Handle) :
    ((document.detach child).attach parent index relation child).node? handle =
      document.node? handle := by
  exact nodes_of_rows unique (fun row => by simp) (add_rows unique clear relation) handle

/-- A node that has been added is linked at the index among the other links of its parent, and no
longer from any other node. -/
theorem links_added (unique : document.handles.Nodup)
    (clear : document.addFault? parent index relation? child = none) (relation : String)
    (upper : Handle) :
    ((document.detach child).attach parent index relation child).links upper =
      if upper = parent then
        ((document.links parent).filter fun link => link.2 ≠ child).insertIdx index
          (relation, child)
      else (document.links upper).filter fun link => link.2 ≠ child := by
  have handles := add_handles unique clear relation
  obtain ⟨tree, loose, rfl, present, outside, inside⟩ := add_ready unique clear
  have detached := detach_handles unique tree.label.handle
  rw [← detach_links unique, ← detach_links unique]
  by_cases upperPresent : upper ∈ (document.detach tree.label.handle).handles
  · exact attach_links (detached.nodup_iff.mpr unique) loose present outside inside relation
      upperPresent
  · have absent := links_absent fun again =>
      upperPresent (detached.mem_iff.mpr (handles.mem_iff.mp again))
    have different : upper ≠ parent := by
      rintro rfl
      exact upperPresent present
    rw [if_neg different, absent, links_absent upperPresent]

/-- A node that has been added stands at the index among the other children of its parent, and no
longer among the children of any other node. -/
theorem add_children (unique : document.handles.Nodup)
    (clear : document.addFault? parent index relation? child = none) (relation : String)
    (upper : Handle) :
    ((document.detach child).attach parent index relation child).children upper =
      if upper = parent then ((document.children parent).filter (· ≠ child)).insertIdx index child
      else (document.children upper).filter (· ≠ child) := by
  rw [children_eq, links_added unique clear]
  split
  · rw [List.map_insertIdx, children_eq, List.filter_map]
    rfl
  · rw [children_eq, List.filter_map]
    rfl

/-- The node that is added is gone from among the children of its old parent. -/
theorem add_children_left (unique : document.handles.Nodup)
    (clear : document.addFault? parent index relation? child = none) (relation : String)
    {upper : Handle} {place : Nat} (placed : document.child? upper place = some child)
    (elsewhere : parent ≠ upper) :
    ((document.detach child).attach parent index relation child).children upper =
      (document.children upper).eraseIdx place := by
  obtain ⟨bound, rfl⟩ := List.getElem?_eq_some_iff.mp placed
  have different := children_nodup unique upper
  rw [add_children unique clear, if_neg elsewhere.symm, ← different.erase_getElem place bound,
    different.erase_eq_filter]
  exact List.filter_congr fun other _ => by rw [decide_not, bne, beq_eq_decide]

/-- The new parent has its other children and the node at the index. -/
theorem add_children_entered (unique : document.handles.Nodup)
    (clear : document.addFault? parent index relation? child = none) (relation : String)
    (elsewhere : document.parent? child ≠ some parent) :
    ((document.detach child).attach parent index relation child).child? parent index =
        some child ∧
      document.children parent =
        (((document.detach child).attach parent index relation child).children parent).eraseIdx
          index := by
  have absent : child ∉ document.children parent := fun member =>
    elsewhere ((parent_iff unique parent child).mpr member)
  have kept := filter_absent absent
  have inside := (add_fault_none clear).2.2.2.2
  rw [otherChildren, kept] at inside
  rw [child?, add_children unique clear, if_pos rfl, kept]
  exact ⟨by rw [List.getElem?_insertIdx_self, if_pos inside],
    (List.eraseIdx_insertIdx_self child).symm⟩

/-- The children of a node that is neither the old nor the new parent stay. -/
theorem add_children_else (unique : document.handles.Nodup)
    (clear : document.addFault? parent index relation? child = none) (relation : String)
    {upper : Handle} (old : document.parent? child ≠ some upper) (new : upper ≠ parent) :
    ((document.detach child).attach parent index relation child).children upper =
      document.children upper := by
  rw [add_children unique clear, if_neg new]
  exact filter_absent fun member => old ((parent_iff unique upper child).mpr member)

/-- Moving a node within a document of one tree leaves a document of one tree with the same top. -/
theorem add_single (unique : document.handles.Nodup)
    (clear : document.addFault? parent index relation? child = none) (relation : String)
    {whole : Tree Entry} (trees : document.trees = [whole]) {upper : Handle}
    (placed : document.parent? child = some upper) :
    ∃ grown, ((document.detach child).attach parent index relation child).trees = [grown] ∧
      grown.label = whole.label := by
  obtain ⟨above, parentPlace, -⟩ := Option.map_eq_some_iff.mp placed
  obtain ⟨⟨tree, steps⟩, found, up⟩ := Option.bind_eq_some_iff.mp parentPlace
  cases steps with
  | nil => simp [Place.parent?] at up
  | cons step further =>
    have named : tree.label.handle = child := (place_found found).2
    have notTop : whole.label.handle ≠ child := by
      rintro rfl
      have topListed : Place.top whole ∈ document.places :=
        List.mem_flatMap.mpr ⟨whole, by simp [trees], (Place.mem_preorder_iff _ _).mpr .here⟩
      have topFound := find_place unique topListed
      change document.place? whole.label.handle = _ at topFound
      simp [found, Place.top] at topFound
    refine ⟨changeBranches parent (fun branches => branches.insertIdx index (relation, tree))
      (changeBranches step.tree.label.handle (withoutBranch child) whole), ?_, ?_⟩
    · simp [detach, found, attach, mapBranches, trees, change_branches_label, notTop, named]
    · rw [change_branches_label, change_branches_label]

/-- One node stands below another parent in the second document than in the first. It is gone from
the one list of children and has come into the other, and nothing else has changed. -/
structure Relocated (before after : Document) (node source target : Handle) (old new : Nat) :
    Prop where
  nodes : ∀ handle, after.node? handle = before.node? handle
  left : before.child? source old = some node
  leftRest : after.children source = (before.children source).eraseIdx old
  entered : after.child? target new = some node
  enteredRest : before.children target = (after.children target).eraseIdx new
  others : ∀ upper, upper ≠ source → upper ≠ target →
    after.children upper = before.children upper

/-- A node that is added below another parent is relocated. -/
theorem add_relocates (unique : document.handles.Nodup)
    (clear : document.addFault? parent index relation? child = none) (relation : String)
    {source : Handle} (placed : document.parent? child = some source)
    (elsewhere : parent ≠ source) :
    ∃ old, Relocated document ((document.detach child).attach parent index relation child) child
      source parent old index := by
  obtain ⟨old, here⟩ := child_of_parent unique placed
  have notParent : document.parent? child ≠ some parent := by
    rw [placed]
    exact fun same => elsewhere (Option.some.inj same).symm
  obtain ⟨entered, rest⟩ := add_children_entered unique clear relation notParent
  refine ⟨old, add_nodes unique clear relation, here,
    add_children_left unique clear relation here elsewhere, entered, rest,
    fun upper notSource notTarget => ?_⟩
  refine add_children_else unique clear relation (fun above => notSource ?_) notTarget
  exact Option.some.inj (above.symm.trans placed)

end Added

/-- A node that stands below another parent after a change stood below another one before it. -/
theorem Relocated.symm {before after : Document} {node source target : Handle} {old new : Nat}
    (relocated : Relocated before after node source target old new) :
    Relocated after before node target source new old where
  nodes handle := (relocated.nodes handle).symm
  left := relocated.entered
  leftRest := relocated.enteredRest
  entered := relocated.left
  enteredRest := relocated.leftRest
  others upper notTarget notSource := (relocated.others upper notSource notTarget).symm

/-- A node whose parent is neither the old nor the new parent of the relocated one is where it
was. -/
theorem Relocated.kept {before after : Document} {node source target : Handle} {old new : Nat}
    (relocated : Relocated before after node source target old new) {upper lower : Handle}
    {index : Nat} (child : before.child? upper index = some lower) (notSource : upper ≠ source)
    (notTarget : upper ≠ target) : after.child? upper index = some lower := by
  rw [child?, relocated.others upper notSource notTarget]
  exact child

end TreeDelta.Document
