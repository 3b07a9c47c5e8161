import Mathlib.Logic.Relation
import TreeDelta.Proofs.Document.Surgery

/-!
# Parents and children

The parent of a node is read off its place and the children of a node off its links. The two say the
same: a node is listed as a child exactly by its parent, once. Depth grows from a parent to its
children, so no node stands above itself, and the nodes that hang below a node are those from which
the way up leads through it.
-/

namespace TreeDelta

namespace Place

variable {α : Type}

/-- A place is among those from it upwards. -/
theorem self_mem_ancestors (place : Place α) : place ∈ place.ancestors := by
  obtain ⟨tree, above⟩ := place
  cases above <;> simp [ancestors, ancestorsFrom]

/-- Above a child stand its parent and what stands above that. -/
theorem ancestors_down (place : Place α) (index : Nat) (child : Tree α) :
    (place.down index child).ancestors = place.down index child :: place.ancestors := rfl

end Place

namespace Document

variable {document : Document}

/-- A node hangs below another one if the children of one after the other lead down to it. -/
def Hangs (document : Document) : Handle → Handle → Prop :=
  Relation.ReflTransGen fun upper lower => lower ∈ document.children upper

/-- The number of nodes above a node. -/
def depth (document : Document) (handle : Handle) : Nat :=
  ((document.place? handle).map Place.depth).getD 0

/-- A child is found below the place of its parent. -/
theorem child_place (unique : document.handles.Nodup) {upper lower : Handle}
    (child : lower ∈ document.children upper) :
    ∃ place index tree, document.place? upper = some place ∧
      document.place? lower = some (Place.down place index tree) := by
  rw [children_eq] at child
  obtain ⟨⟨relation, _⟩, linked, rfl⟩ := List.mem_map.mp child
  obtain ⟨place, found⟩ := place_of_handle (handle_of_link linked)
  rw [links, found] at linked
  obtain ⟨index, tree, _, below⟩ := place_of_link unique (place_found found).1 linked
  exact ⟨place, index, tree, found, below⟩

/-- The parent of a node is the one that lists it as a child. -/
theorem parent_iff (unique : document.handles.Nodup) (upper lower : Handle) :
    document.parent? lower = some upper ↔ lower ∈ document.children upper := by
  constructor
  · intro parent
    obtain ⟨above, parentPlace, rfl⟩ := Option.map_eq_some_iff.mp parent
    obtain ⟨⟨tree, steps⟩, found, up⟩ := Option.bind_eq_some_iff.mp parentPlace
    cases steps with
    | nil => simp [Place.parent?] at up
    | cons step further =>
      obtain rfl : Place.mk step.tree further = above := Option.some.inj up
      obtain ⟨listed, rfl⟩ := place_found found
      obtain ⟨parentListed, branch⟩ := parent_listed listed
      rw [children, find_place unique parentListed]
      exact List.mem_map.mpr ⟨tree, List.mem_of_getElem? branch, rfl⟩
  · intro child
    obtain ⟨place, index, tree, found, below⟩ := child_place unique child
    rw [parent?, below, ← (place_found found).2]
    rfl

/-- The children of a node are different nodes. -/
theorem children_nodup (unique : document.handles.Nodup) (handle : Handle) :
    (document.children handle).Nodup := by
  unfold children
  cases found : document.place? handle with
  | none => exact List.nodup_nil
  | some place =>
    have different := branch_handles_nodup unique (place_found found).1
    change (place.tree.children.map fun child => child.label.handle).Nodup
    rwa [Tree.children, List.map_map]

/-- A node stands once among the children of its parent and nowhere else. -/
theorem children_count (unique : document.handles.Nodup) (upper lower : Handle) :
    (document.children upper).count lower =
      if document.parent? lower = some upper then 1 else 0 := by
  rw [(children_nodup unique upper).count]
  simp only [parent_iff unique]

/-- A node that is not in a list of nodes leaves the list as it is when it is struck. -/
theorem filter_absent {handle : Handle} {handles : List Handle} (absent : handle ∉ handles) :
    handles.filter (· ≠ handle) = handles := by
  refine List.filter_eq_self.mpr fun other member => ?_
  simpa using fun same : other = handle => absent (same ▸ member)

/-- The links of a node are its keys with its children. -/
theorem zip_links (document : Document) (handle : Handle) :
    (document.relations handle).zip (document.children handle) = document.links handle := by
  rw [relations_eq, children_eq, List.zip_map', List.map_id']

/-- A child is found by its key if the keys of its parent differ. -/
theorem lookup_child {upper child : Handle} {relation : String}
    (differ : (document.relations upper).Nodup)
    (linked : (relation, child) ∈ document.links upper) :
    document.childByRelation? upper relation = some child := by
  rw [childByRelation?, zip_links]
  rw [relations_eq] at differ
  exact Named.lookup_named differ linked

/-- A child that is found by a key has a link with the key. -/
theorem link_of_lookup {upper child : Handle} {relation : String}
    (found : document.childByRelation? upper relation = some child) :
    (relation, child) ∈ document.links upper := by
  rw [childByRelation?, zip_links] at found
  obtain ⟨key, linked, same⟩ := Named.mem_of_lookup found
  rwa [beq_iff_eq.mp same]

/-- A node with a parent is found there by its index and, if the keys of the parent differ, by its
key. -/
theorem slot_of_parent (unique : document.handles.Nodup) {upper lower : Handle}
    (differ : (document.relations upper).Nodup) (parent : document.parent? lower = some upper) :
    ∃ index relation, document.index? lower = some index ∧
      document.relation? lower = some relation ∧ index < document.childCount upper ∧
      document.child? upper index = some lower ∧
      document.childByRelation? upper relation = some lower := by
  have child := (parent_iff unique _ _).mp parent
  obtain ⟨place, index, tree, found, below⟩ := child_place unique child
  obtain ⟨listed, named⟩ := place_found below
  replace named : tree.label.handle = lower := named
  subst named
  have branch : place.tree.children[index]? = some tree := (parent_listed listed).2
  obtain ⟨relation, branchFound⟩ :
      ∃ relation, place.tree.branches[index]? = some (relation, tree) := by
    simpa [Tree.children] using branch
  have indexed : (document.children upper)[index]? = some tree.label.handle := by
    simp [children, found, branch]
  have linked : (relation, tree.label.handle) ∈ document.links upper := by
    rw [links, found]
    exact List.mem_map.mpr ⟨(relation, tree), List.mem_of_getElem? branchFound, rfl⟩
  refine ⟨index, relation, ?_, ?_, (List.getElem?_eq_some_iff.mp indexed).1, indexed,
    lookup_child differ linked⟩
  · rw [index?, below]
    rfl
  · simp [relation?, below, Place.relation?, Place.down, Tree.relations, branchFound]

/-- A child stands one step below its parent. -/
theorem depth_child (unique : document.handles.Nodup) {upper lower : Handle}
    (child : lower ∈ document.children upper) :
    document.depth lower = document.depth upper + 1 := by
  obtain ⟨place, index, tree, found, below⟩ := child_place unique child
  simp [depth, found, below, Place.depth, Place.down]

/-- What hangs below a node does not stand above it. -/
theorem depth_hangs (unique : document.handles.Nodup) {upper lower : Handle}
    (hangs : document.Hangs upper lower) : document.depth upper ≤ document.depth lower := by
  induction hangs with
  | refl => exact le_rfl
  | tail _ child inductionHypothesis =>
    have below := depth_child unique child
    omega

/-- No node is above itself. -/
theorem acyclic (unique : document.handles.Nodup) (handle : Handle) :
    ¬ Relation.TransGen (fun lower upper => document.parent? lower = some upper) handle handle := by
  have rises {lower upper : Handle} (above : Relation.TransGen
      (fun lower upper => document.parent? lower = some upper) lower upper) :
      document.depth upper < document.depth lower := by
    induction above with
    | single parent =>
      have below := depth_child unique ((parent_iff unique _ _).mp parent)
      omega
    | tail _ parent inductionHypothesis =>
      have below := depth_child unique ((parent_iff unique _ _).mp parent)
      omega
  exact fun above => lt_irrefl _ (rises above)

/-- The nodes of the tree below a node hang below it. -/
theorem hangs_inside (unique : document.handles.Nodup) {place : Place Entry}
    (listed : place ∈ document.places) {lower : Handle}
    (inside : lower ∈ (treeRows place.tree).map Row.handle) :
    document.Hangs place.label.handle lower := by
  rw [treeRows, List.map_map, ← Tree.subtrees_from place.above, List.map_map] at inside
  obtain ⟨inner, innerListed, rfl⟩ := List.mem_map.mp inside
  obtain ⟨whole, member, placeListed⟩ := List.mem_flatMap.mp listed
  have outer := (Place.mem_preorder_iff _ _).mp placeListed
  have reached : Place.Reaches place inner := (Place.mem_preorder_iff _ _).mp innerListed
  clear inside innerListed
  induction reached with
  | here => exact .refl
  | @down inner index child reached branch inductionHypothesis =>
    refine inductionHypothesis.tail ?_
    have innerListed : inner ∈ document.places := List.mem_flatMap.mpr
      ⟨whole, member, (Place.mem_preorder_iff _ _).mpr (outer.trans reached)⟩
    change child.label.handle ∈ document.children inner.label.handle
    rw [children, find_place unique innerListed]
    exact List.mem_map.mpr ⟨child, List.mem_of_getElem? branch, rfl⟩

/-- The way up from a node leads through every node that it hangs below. -/
theorem ancestor_of_hangs (unique : document.handles.Nodup) {upper lower : Handle}
    (present : upper ∈ document.handles) (hangs : document.Hangs upper lower) :
    document.isAncestorOrSelf upper lower = true := by
  obtain ⟨top, topFound⟩ := place_of_handle present
  have passed : ∃ place, document.place? lower = some place ∧ top ∈ place.ancestors := by
    induction hangs with
    | refl => exact ⟨top, topFound, top.self_mem_ancestors⟩
    | tail _ child inductionHypothesis =>
      obtain ⟨place, found, through⟩ := inductionHypothesis
      obtain ⟨parent, index, tree, parentFound, below⟩ := child_place unique child
      obtain rfl : place = parent := Option.some.inj (found.symm.trans parentFound)
      refine ⟨_, below, ?_⟩
      rw [Place.ancestors_down]
      exact List.mem_cons_of_mem _ through
  obtain ⟨place, found, through⟩ := passed
  rw [isAncestorOrSelf, ancestors, found, List.contains_iff_mem, ← (place_found topFound).2]
  exact List.mem_map_of_mem through

/-- A node hangs below every node that the way up from it leads through. -/
theorem hangs_of_ancestor (unique : document.handles.Nodup) {upper lower : Handle}
    (above : document.isAncestorOrSelf upper lower = true) : document.Hangs upper lower := by
  have upwards (steps : List (Step Entry)) (tree : Tree Entry)
      (listed : Place.mk tree steps ∈ document.places) (place : Place Entry)
      (passed : place ∈ Place.ancestorsFrom tree steps) :
      document.Hangs place.label.handle tree.label.handle := by
    induction steps generalizing tree with
    | nil =>
      obtain rfl : place = ⟨tree, []⟩ := by simpa [Place.ancestorsFrom] using passed
      exact .refl
    | cons up further inductionHypothesis =>
      obtain rfl | higher : place = ⟨tree, up :: further⟩ ∨
          place ∈ Place.ancestorsFrom up.tree further := by
        simpa [Place.ancestorsFrom] using passed
      · exact .refl
      · obtain ⟨parentListed, branch⟩ := parent_listed listed
        refine (inductionHypothesis up.tree parentListed higher).tail ?_
        have found := find_place unique parentListed
        simp only [Place.label] at found
        rw [Document.children, found]
        exact List.mem_map.mpr ⟨tree, List.mem_of_getElem? branch, rfl⟩
  rw [isAncestorOrSelf, ancestors] at above
  cases found : document.place? lower with
  | none => simp [found] at above
  | some place =>
    obtain ⟨listed, rfl⟩ := place_found found
    rw [found, List.contains_iff_mem] at above
    obtain ⟨higher, passed, rfl⟩ := List.mem_map.mp above
    exact upwards place.above place.tree listed higher passed

end Document

end TreeDelta
