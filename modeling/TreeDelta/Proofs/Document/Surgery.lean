import Mathlib.Data.List.Flatten
import Mathlib.Data.List.Perm.Basic
import TreeDelta.Document.Surgery
import TreeDelta.Proofs.Document.Rows

/-!
# What surgery does to rows

Every operation on the shape of a document comes down to one of three changes of rows: a node is
struck from the links of every row, a link is put into the row of one node, or the links of one row
go behind those of another. Rows are neither lost nor made, and no other row changes.

The trees behind the rows change much more: whatever stands above a changed node is a different tree
afterwards. That is why the effect of a change is first stated as a balance. The rows of the changed
tree and those of the old subtree are, together, the rows of the old tree and those of the new
subtree.
-/

namespace TreeDelta.Document

namespace Row

/-- A row that no longer links to a node. -/
def without (child : Handle) (row : Row) : Row :=
  ⟨row.entry, row.links.filter fun link => link.2 ≠ child⟩

/-- A row whose links are changed if it belongs to the given node. -/
def relink (handle : Handle) (change : List (String × Handle) → List (String × Handle))
    (row : Row) : Row :=
  if row.handle = handle then ⟨row.entry, change row.links⟩ else row

/-- A row whose node is changed if it is the given one. -/
def update (handle : Handle) (change : Node → Node) (row : Row) : Row :=
  ⟨if row.handle = handle then { row.entry with node := change row.entry.node } else row.entry,
    row.links⟩

/-- A row that loses a child keeps its handle. -/
@[simp] theorem without_handle (child : Handle) (row : Row) :
    (row.without child).handle = row.handle := rfl

/-- A row that loses a child keeps everything else that its node carries. -/
@[simp] theorem without_entry (child : Handle) (row : Row) :
    (row.without child).entry = row.entry := rfl

/-- Changing the links of a node changes nothing else that it carries. -/
@[simp] theorem relink_entry (handle : Handle)
    (change : List (String × Handle) → List (String × Handle)) (row : Row) :
    (row.relink handle change).entry = row.entry := by
  unfold relink
  split <;> rfl

/-- Changing links changes no handle. -/
@[simp] theorem relink_handle (handle : Handle)
    (change : List (String × Handle) → List (String × Handle)) (row : Row) :
    (row.relink handle change).handle = row.handle := by
  unfold relink
  split <;> rfl

/-- The links are changed in the row of the node, and in no other. -/
@[simp] theorem relink_links (handle : Handle)
    (change : List (String × Handle) → List (String × Handle)) (row : Row) :
    (row.relink handle change).links =
      if row.handle = handle then change row.links else row.links := by
  unfold relink
  split <;> rfl

/-- Changing what a node carries changes no handle. -/
@[simp] theorem update_handle (handle : Handle) (change : Node → Node) (row : Row) :
    (row.update handle change).handle = row.handle := by
  unfold update Row.handle
  split <;> rfl

end Row

/-- A branch list is changed member by member. -/
theorem change_below_eq (handle : Handle) (change : Branches → Branches) (branches : Branches) :
    changeBelow handle change branches =
      branches.map fun branch => (branch.1, changeBranches handle change branch.2) := by
  induction branches with
  | nil => rfl
  | cons branch rest inductionHypothesis => simp [changeBelow, inductionHypothesis]

/-- A change below the top leaves the top. -/
theorem change_branches_label (handle : Handle) (change : Branches → Branches)
    (tree : Tree Entry) : (changeBranches handle change tree).label = tree.label := by
  cases tree
  rfl

/-- A tree in which the node does not occur is not changed. -/
theorem change_absent (handle : Handle) (change : Branches → Branches) (tree : Tree Entry)
    (absent : handle ∉ (treeRows tree).map Row.handle) :
    changeBranches handle change tree = tree := by
  induction tree using Tree.induct with
  | node top branches inductionHypothesis =>
    simp only [tree_rows_node, List.map_cons, List.map_flatMap, List.mem_cons, List.mem_flatMap,
      not_or, not_exists, not_and] at absent
    have below : changeBelow handle change branches = branches := by
      rw [change_below_eq]
      refine (List.map_congr_left fun branch member => ?_).trans (List.map_id _)
      rw [inductionHypothesis branch member (absent.2 branch member)]
      rfl
    have elsewhere : top.handle ≠ handle := fun same => absent.1 same.symm
    simp [changeBranches, below, elsewhere]

/-- A change in one tree of a list is a change in the list: the other trees do not have the node. -/
theorem change_rows_among (handle : Handle) (change : Branches → Branches)
    (trees : List (Tree Entry)) (tree : Tree Entry) (old new : List Row) (member : tree ∈ trees)
    (present : handle ∈ (treeRows tree).map Row.handle)
    (unique : ((trees.flatMap treeRows).map Row.handle).Nodup)
    (inside : (treeRows (changeBranches handle change tree) ++ old).Perm (treeRows tree ++ new)) :
    ((trees.map (changeBranches handle change)).flatMap treeRows ++ old).Perm
      (trees.flatMap treeRows ++ new) := by
  induction trees with
  | nil => simp at member
  | cons first rest inductionHypothesis =>
    simp only [List.flatMap_cons, List.map_append, List.nodup_append] at unique
    obtain ⟨_, restUnique, apart⟩ := unique
    simp only [List.map_cons, List.flatMap_cons]
    rcases List.mem_cons.mp member with rfl | later
    · have untouched : rest.map (changeBranches handle change) = rest := by
        refine (List.map_congr_left fun other otherMember => ?_).trans (List.map_id _)
        refine change_absent handle change other fun again => ?_
        refine apart handle present handle ?_ rfl
        rw [List.map_flatMap]
        exact List.mem_flatMap.mpr ⟨other, otherMember, again⟩
      rw [untouched]
      rw [List.perm_iff_count] at inside ⊢
      intro row
      have balance := inside row
      simp only [List.count_append] at balance ⊢
      omega
    · have elsewhere : handle ∉ (treeRows first).map Row.handle := by
        intro here
        refine apart handle here handle ?_ rfl
        rw [List.map_flatMap]
        exact List.mem_flatMap.mpr ⟨tree, later, present⟩
      rw [change_absent handle change first elsewhere, List.append_assoc, List.append_assoc]
      exact (inductionHypothesis later restUnique).append_left _

/-- Changing the branches of a node of a tree exchanges the rows of its old subtree for those of its
new one, and the node's own row with them.

The induction is on the tree. If the node is its top, no branch has the node, so only the row of the
top changes. Otherwise the node is in exactly one of the branches, that one changes by the induction
hypothesis, and the row of the top stays, since the branches keep their labels. -/
theorem change_rows (change : Branches → Branches) (tree target : Tree Entry)
    (unique : ((treeRows tree).map Row.handle).Nodup) (inside : target ∈ tree.subtrees) :
    (treeRows (changeBranches target.label.handle change tree) ++ treeRows target).Perm
      (treeRows tree ++ treeRows (.node target.label (change target.branches))) := by
  induction tree using Tree.induct with
  | node top branches inductionHypothesis =>
    have rows := tree_rows_node top branches
    have listed : branches.flatMap (fun branch => treeRows branch.2) =
        (branches.map Prod.snd).flatMap treeRows := by rw [List.flatMap_map]
    rw [rows, List.map_cons, List.nodup_cons, listed] at unique
    rw [Tree.subtrees_node, List.mem_cons, List.mem_flatMap] at inside
    rcases inside with rfl | ⟨branch, member, below⟩
    · have untouched : changeBelow top.handle change branches = branches := by
        rw [change_below_eq]
        refine (List.map_congr_left fun branch member => ?_).trans (List.map_id _)
        rw [change_absent top.handle change branch.2 fun again => unique.1 ?_]
        · rfl
        · rw [List.map_flatMap]
          exact List.mem_flatMap.mpr ⟨branch.2, List.mem_map_of_mem member, again⟩
      simp only [Tree.label_node, Tree.branches_node, changeBranches, ↓reduceIte, untouched]
      exact List.perm_append_comm
    · have branchUnique : ((treeRows branch.2).map Row.handle).Nodup := by
        rw [List.map_flatMap] at unique
        exact (List.nodup_flatMap.mp unique.2).1 branch.2 (List.mem_map_of_mem member)
      have present : target.label.handle ∈ (treeRows branch.2).map Row.handle := by
        rw [treeRows, List.map_map]
        exact List.mem_map.mpr ⟨target, below, rfl⟩
      have elsewhere : top.handle ≠ target.label.handle := by
        intro same
        rw [← same] at present
        apply unique.1
        rw [List.map_flatMap]
        exact List.mem_flatMap.mpr ⟨branch.2, List.mem_map_of_mem member, present⟩
      have changed := change_rows_among target.label.handle change (branches.map Prod.snd) branch.2
        _ _ (List.mem_map_of_mem member) present unique.2
        (inductionHypothesis branch member branchUnique below)
      have links : (changeBelow target.label.handle change branches).map link =
          branches.map link := by
        rw [change_below_eq, List.map_map]
        refine List.map_congr_left fun other _ => ?_
        simp [link, change_branches_label]
      have changedRows : treeRows
          (changeBranches target.label.handle change (.node top branches)) =
          ⟨top, branches.map link⟩ :: ((branches.map Prod.snd).map
            (changeBranches target.label.handle change)).flatMap treeRows := by
        simp only [changeBranches, elsewhere, ↓reduceIte, tree_rows_node, links]
        rw [change_below_eq, List.map_map, List.flatMap_map, List.flatMap_map]
        rfl
      rw [rows, listed, changedRows, List.cons_append, List.cons_append]
      exact changed.cons _

variable {document : Document}

/-- Changing the branches of a node of a document exchanges the rows of its old subtree for those of
its new one. -/
theorem map_branches_rows (unique : document.handles.Nodup) {place : Place Entry}
    (listed : place ∈ document.places) (change : Branches → Branches) :
    ((document.mapBranches place.label.handle change).rows ++ treeRows place.tree).Perm
      (document.rows ++ treeRows (.node place.label (change place.tree.branches))) := by
  obtain ⟨tree, member, inTree⟩ := List.mem_flatMap.mp listed
  have inside : place.tree ∈ tree.subtrees := List.mem_map_of_mem inTree
  have present : place.label.handle ∈ (treeRows tree).map Row.handle := by
    rw [treeRows, List.map_map]
    exact List.mem_map.mpr ⟨place.tree, inside, rfl⟩
  rw [← rows_handles, rows] at unique
  have treeUnique : ((treeRows tree).map Row.handle).Nodup := by
    rw [List.map_flatMap] at unique
    exact (List.nodup_flatMap.mp unique).1 tree member
  exact change_rows_among place.label.handle change document.trees tree _ _ member present unique
    (change_rows change tree place.tree treeUnique inside)

/-- The rows of a subtree begin with the row of its top. -/
theorem tree_rows_eq (tree : Tree Entry) :
    treeRows tree = rowOf tree :: tree.branches.flatMap fun branch => treeRows branch.2 := by
  rw [← Tree.node_label_branches tree, tree_rows_node]
  rfl

/-- A place has its row in the table. -/
theorem row_listed {place : Place Entry} (listed : place ∈ document.places) :
    rowOf place.tree ∈ document.rows := by
  rw [rows_of_places]
  exact List.mem_map_of_mem listed

/-- Relinking a node leaves a table without a row of the node as it is. -/
theorem relink_absent {rows : List Row} {handle : Handle} (absent : handle ∉ rows.map Row.handle)
    (change : List (String × Handle) → List (String × Handle)) :
    rows.map (Row.relink handle change) = rows := by
  refine (List.map_congr_left fun row member => ?_).trans (List.map_id _)
  have different : row.handle ≠ handle := fun same => absent (same ▸ List.mem_map_of_mem member)
  exact if_neg different

/-- Relinking one node exchanges its row. The other rows have other handles and stay. -/
theorem relink_rows {rows : List Row} (unique : (rows.map Row.handle).Nodup) {target : Row}
    (member : target ∈ rows) (change : List (String × Handle) → List (String × Handle)) :
    (rows.map (Row.relink target.handle change) ++ [target]).Perm
      (rows ++ [⟨target.entry, change target.links⟩]) := by
  have split := List.perm_cons_erase member
  have uniqueSplit := (split.map Row.handle).nodup_iff.mp unique
  rw [List.map_cons, List.nodup_cons] at uniqueSplit
  have image : target.relink target.handle change = ⟨target.entry, change target.links⟩ :=
    if_pos rfl
  have changed := split.map (Row.relink target.handle change)
  rw [List.map_cons, relink_absent uniqueSplit.1, image] at changed
  rw [List.perm_iff_count] at split changed ⊢
  intro row
  have before := split row
  have after := changed row
  simp only [List.count_cons, List.count_append, List.count_nil] at before after ⊢
  omega

/-- Changing the branches of a node relinks it, and exchanges the rows below its old branches for
those below its new ones. -/
theorem map_branches_relink (unique : document.handles.Nodup) {place : Place Entry}
    (listed : place ∈ document.places) (change : Branches → Branches)
    (relinked : List (String × Handle) → List (String × Handle))
    (links : (change place.tree.branches).map link = relinked (place.tree.branches.map link)) :
    ((document.mapBranches place.label.handle change).rows ++
        place.tree.branches.flatMap fun branch => treeRows branch.2).Perm
      (document.rows.map (Row.relink place.label.handle relinked) ++
        (change place.tree.branches).flatMap fun branch => treeRows branch.2) := by
  have balance := map_branches_rows unique listed change
  have single := relink_rows (by rwa [rows_handles]) (row_listed listed) relinked
  rw [tree_rows_node, tree_rows_eq place.tree, links] at balance
  rw [List.perm_iff_count] at balance single ⊢
  intro row
  have first := balance row
  have second := single row
  simp only [rowOf, Row.handle, Place.label, List.count_append, List.count_cons,
    List.count_nil] at first second ⊢
  omega

/-- A link in the row of a place leads to the place of the child. -/
theorem place_of_link (unique : document.handles.Nodup) {place : Place Entry}
    (listed : place ∈ document.places) {relation : String} {child : Handle}
    (linked : (relation, child) ∈ (rowOf place.tree).links) :
    ∃ index tree, place.tree.branches[index]? = some (relation, tree) ∧
      document.place? child = some (place.down index tree) := by
  obtain ⟨⟨key, tree⟩, member, same⟩ := List.mem_map.mp linked
  obtain ⟨rfl, rfl⟩ := Prod.mk.inj same
  obtain ⟨index, found⟩ := List.getElem?_of_mem member
  refine ⟨index, tree, found, ?_⟩
  have childFound : place.tree.children[index]? = some tree := by
    simp [Tree.children, found]
  obtain ⟨whole, wholeMember, inside⟩ := List.mem_flatMap.mp listed
  have down : place.down index tree ∈ document.places := List.mem_flatMap.mpr
    ⟨whole, wholeMember, Place.listed_down _ _ _ _ _ inside childFound⟩
  exact find_place unique down

/-- The parent of a place of a document is a place of the document. -/
theorem parent_listed {tree : Tree Entry} {up : Step Entry} {further : List (Step Entry)}
    (listed : Place.mk tree (up :: further) ∈ document.places) :
    Place.mk up.tree further ∈ document.places ∧ up.tree.children[up.index]? = some tree := by
  obtain ⟨whole, member, inside⟩ := List.mem_flatMap.mp listed
  obtain ⟨above, branch⟩ := Place.parent_listed inside
  exact ⟨List.mem_flatMap.mpr ⟨whole, member, above⟩, branch⟩

/-- The branches of a place of a document lead to different nodes. -/
theorem branch_handles_nodup (unique : document.handles.Nodup) {place : Place Entry}
    (listed : place ∈ document.places) :
    (place.tree.branches.map fun branch => branch.2.label.handle).Nodup := by
  have places : place.tree.branches.Pairwise fun first second =>
      first.2.label.handle ≠ second.2.label.handle := by
    rw [List.pairwise_iff_getElem]
    intro early late earlyBound lateBound before same
    have found (index : Nat) (bound : index < place.tree.branches.length) :
        document.place? place.tree.branches[index].2.label.handle =
          some (place.down index place.tree.branches[index].2) := by
      obtain ⟨whole, wholeMember, inside⟩ := List.mem_flatMap.mp listed
      have childFound : place.tree.children[index]? = some place.tree.branches[index].2 := by
        simp [Tree.children, bound]
      exact find_place unique (List.mem_flatMap.mpr
        ⟨whole, wholeMember, Place.listed_down _ _ _ _ _ inside childFound⟩)
    have both := found early earlyBound
    rw [same, found late lateBound] at both
    have index : late = early := by
      have steps := (Place.mk.inj (Option.some.inj both)).2
      exact (Step.mk.inj (List.cons.inj steps).1).2
    omega
  rw [List.Nodup, List.pairwise_map]
  exact places

/-- A row stays as it is when a node is struck from it that it does not link to. -/
theorem without_unlinked (handle : Handle) (row : Row)
    (unlinked : handle ∉ row.links.map Prod.snd) : row.without handle = row := by
  have kept : row.links.filter (fun link => decide (link.2 ≠ handle)) = row.links := by
    refine List.filter_eq_self.mpr fun link member => ?_
    simpa using fun same : link.2 = handle => unlinked (same ▸ List.mem_map_of_mem member)
  rw [Row.without, kept]

/-- Only the parent of a node has a row that links to it. -/
theorem parent_of_link (unique : document.handles.Nodup) {handle : Handle} {row : Row}
    (listed : row ∈ document.rows) (linked : handle ∈ row.links.map Prod.snd) :
    ∃ place index tree, rowOf place.tree = row ∧
      document.place? handle = some (Place.down place index tree) := by
  rw [rows_of_places] at listed
  obtain ⟨place, placeListed, rfl⟩ := List.mem_map.mp listed
  obtain ⟨⟨relation, child⟩, member, rfl⟩ := List.mem_map.mp linked
  obtain ⟨index, tree, _, found⟩ := place_of_link unique placeListed member
  exact ⟨place, index, tree, rfl, found⟩

/-- Striking a node from all rows changes nothing if the node has no parent. -/
theorem rows_without_top (unique : document.handles.Nodup) {handle : Handle}
    (top : ∀ tree up further, document.place? handle ≠ some ⟨tree, up :: further⟩) :
    document.rows.map (Row.without handle) = document.rows := by
  refine (List.map_congr_left fun row member => ?_).trans (List.map_id _)
  refine without_unlinked handle row fun linked => ?_
  obtain ⟨place, index, tree, _, found⟩ := parent_of_link unique member linked
  exact top tree ⟨place.tree, index⟩ place.above found

/-- Dropping the branch that leads to a node takes the rows of its tree out of those of the
branches. -/
theorem without_branch_rows {branches : Branches} {relation : String} {tree : Tree Entry}
    (unique : (branches.map fun branch => branch.2.label.handle).Nodup)
    (member : (relation, tree) ∈ branches) :
    (branches.flatMap fun branch => treeRows branch.2).Perm
      (treeRows tree ++
        (withoutBranch tree.label.handle branches).flatMap fun branch => treeRows branch.2) :=
  (Named.split_named (fun branch : String × Tree Entry => branch.2.label.handle) unique
    member).flatMap_right fun branch => treeRows branch.2

/-- Striking a node that has a parent from all rows relinks the parent, whose row is the only one
that links to it. -/
theorem rows_without_child (unique : document.handles.Nodup) {tree : Tree Entry} {up : Step Entry}
    {further : List (Step Entry)}
    (found : document.place? tree.label.handle = some ⟨tree, up :: further⟩) :
    document.rows.map (Row.without tree.label.handle) =
      document.rows.map (Row.relink up.tree.label.handle fun links =>
        links.filter fun link => link.2 ≠ tree.label.handle) := by
  refine List.map_congr_left fun row member => ?_
  by_cases parent : row.handle = up.tree.label.handle
  · rw [Row.relink, if_pos parent]
    rfl
  · rw [Row.relink, if_neg parent]
    refine without_unlinked _ row fun linked => parent ?_
    obtain ⟨place, index, child, rfl, placed⟩ := parent_of_link unique member linked
    obtain ⟨_, steps⟩ := Place.mk.inj (Option.some.inj (found.symm.trans placed))
    obtain ⟨rfl, _⟩ := List.cons.inj steps
    rfl

/-- Taking a node out strikes it from the links of every row. Only its parent has a link to it.

A node without a parent is taken out of nothing. Otherwise the rows of its parent's tree are those
without the branch and those of the branch, and counting each row on both sides gives the
statement. -/
theorem detach_rows (unique : document.handles.Nodup) (handle : Handle) :
    (document.detach handle).rows.Perm (document.rows.map (Row.without handle)) := by
  match found : document.place? handle with
  | none =>
    rw [rows_without_top unique fun tree up further => by simp [found]]
    simp [detach, found]
  | some ⟨tree, []⟩ =>
    rw [rows_without_top unique fun tree up further => by simp [found]]
    simp [detach, found]
  | some ⟨tree, up :: further⟩ =>
    obtain ⟨listed, rfl⟩ := place_found found
    obtain ⟨parentListed, branch⟩ := parent_listed listed
    obtain ⟨⟨relation, child⟩, member, rfl⟩ := List.mem_map.mp (List.mem_of_getElem? branch)
    have parts := without_branch_rows (branch_handles_nodup unique parentListed) member
    have balance := map_branches_relink unique parentListed (withoutBranch child.label.handle)
      (fun links => links.filter fun link => link.2 ≠ child.label.handle) (by
        rw [List.filter_map]
        rfl)
    have detached : (document.detach child.label.handle).rows =
        (document.mapBranches up.tree.label.handle (withoutBranch child.label.handle)).rows ++
          treeRows child := by
      simp only [Place.label] at found
      simp [detach, found, rows]
    simp only [Place.label] at found ⊢
    rw [detached, rows_without_child unique found]
    rw [List.perm_iff_count] at balance parts ⊢
    intro row
    have first := balance row
    have second := parts row
    simp only [Place.label, List.count_append] at first second ⊢
    omega

/-- The tops of the trees of a document are different nodes. -/
theorem tops_nodup (unique : document.handles.Nodup) :
    (document.trees.map fun tree => tree.label.handle).Nodup := by
  have among (trees : List (Tree Entry)) :
      (trees.map fun tree => tree.label.handle).Sublist
        (trees.flatMap fun tree => tree.preorder.map Entry.handle) := by
    induction trees with
    | nil => exact .slnil
    | cons tree rest inductionHypothesis =>
      obtain ⟨top, branches⟩ := tree
      simp only [List.map_cons, List.flatMap_cons, Tree.preorder, Tree.label_node, List.cons_append]
      exact (inductionHypothesis.trans (List.sublist_append_right _ _)).cons_cons _
  exact unique.sublist (among document.trees)

/-- A node that is given a place below another one is put into the links of that one.

The rows are those of the tree that is put in and those of the trees that remain. By
`map_branches_relink` the change of the parent's branches adds the rows of the first to the second.
Counting each row on both sides gives the statement. -/
theorem attach_rows (unique : document.handles.Nodup) {tree : Tree Entry}
    (loose : tree ∈ document.trees) {parent : Handle} (present : parent ∈ document.handles)
    (outside : parent ∉ (treeRows tree).map Row.handle) {index : Nat}
    (inside : index ≤ (document.links parent).length) (relation : String) :
    (document.attach parent index relation tree.label.handle).rows.Perm
      (document.rows.map (Row.relink parent fun links =>
        links.insertIdx index (relation, tree.label.handle))) := by
  let remaining : Document :=
    { document with
      trees := document.trees.filter fun other => other.label.handle ≠ tree.label.handle }
  have attached : document.attach parent index relation tree.label.handle =
      remaining.mapBranches parent fun branches => branches.insertIdx index (relation, tree) := by
    have found := Named.find_named (fun other : Tree Entry => other.label.handle)
      (tops_nodup unique) loose
    simp [attach, found, remaining]
  have parts : document.rows.Perm (treeRows tree ++ remaining.rows) :=
    (Named.split_named (fun other : Tree Entry => other.label.handle) (tops_nodup unique)
      loose).flatMap_right treeRows
  have handles := parts.map Row.handle
  rw [rows_handles, List.map_append, rows_handles] at handles
  have remainingUnique : remaining.handles.Nodup :=
    (List.nodup_append.mp (handles.nodup_iff.mp unique)).2.1
  have remains : parent ∈ remaining.handles :=
    (List.mem_append.mp (handles.mem_iff.mp present)).resolve_left outside
  obtain ⟨place, found⟩ := place_of_handle remains
  obtain ⟨listed, rfl⟩ := place_found found
  have links := links_of_row unique
    (parts.mem_iff.mpr (List.mem_append_right _ (row_listed listed)))
  have room : index ≤ place.tree.branches.length := by
    change document.links place.label.handle = _ at links
    simpa [links, rowOf] using inside
  have inserted := (List.perm_insertIdx (relation, tree) place.tree.branches room).flatMap_right
    fun branch => treeRows branch.2
  have balance := map_branches_relink remainingUnique listed
    (fun branches => branches.insertIdx index (relation, tree))
    (fun links => links.insertIdx index (relation, tree.label.handle)) (List.map_insertIdx _ _ _ _)
  have relinked := parts.map (Row.relink place.label.handle fun links =>
    links.insertIdx index (relation, tree.label.handle))
  -- The tree that is put in has no row of the parent, so relinking the parent leaves its rows.
  rw [List.map_append, relink_absent outside] at relinked
  rw [attached]
  rw [List.perm_iff_count] at balance inserted relinked ⊢
  intro row
  have first := balance row
  have second := inserted row
  have third := relinked row
  simp only [List.flatMap_cons, List.count_append] at first second third ⊢
  omega

/-- When the branches of a node are moved to another one, its links go behind those of the other.
The other node must not hang below the first, or it would be lost with the branches.

First the node is emptied, then the branches are put behind those of the target, which is still
there since it has not been below the node. Each of the two is a change of branches, and counting
each row on both sides gives the statement. -/
theorem transfer_rows (unique : document.handles.Nodup) {source : Place Entry} {target : Handle}
    (listed : source ∈ document.places) (present : target ∈ document.handles)
    (outside : target ∉ (treeRows source.tree).map Row.handle) :
    (document.transferBranches source.label.handle target).rows.Perm
      ((document.rows.map (Row.relink source.label.handle fun _ => [])).map
        (Row.relink target (· ++ (rowOf source.tree).links))) := by
  let emptied := document.mapBranches source.label.handle fun _ => []
  have transferred : document.transferBranches source.label.handle target =
      emptied.mapBranches target (· ++ source.tree.branches) := by
    simp [transferBranches, branches, find_place unique listed, emptied]
  have outsideBranches : target ∉ (source.tree.branches.flatMap fun branch =>
      treeRows branch.2).map Row.handle := by
    rw [tree_rows_eq, List.map_cons] at outside
    exact fun below => outside (List.mem_cons_of_mem _ below)
  have emptiedRows := map_branches_relink unique listed (fun _ => []) (fun _ => []) rfl
  rw [List.flatMap_nil, List.append_nil] at emptiedRows
  have handles := emptiedRows.map Row.handle
  rw [List.map_append, List.map_map] at handles
  simp only [Function.comp_def, Row.relink_handle] at handles
  rw [rows_handles, rows_handles] at handles
  have emptiedUnique : emptied.handles.Nodup :=
    (List.nodup_append.mp (handles.nodup_iff.mpr unique)).1
  have remains : target ∈ emptied.handles :=
    (List.mem_append.mp (handles.mem_iff.mpr present)).resolve_right outsideBranches
  obtain ⟨place, found⟩ := place_of_handle remains
  obtain ⟨placeListed, rfl⟩ := place_found found
  have balance := map_branches_relink emptiedUnique placeListed (· ++ source.tree.branches)
    (· ++ (rowOf source.tree).links) List.map_append
  have relinked := emptiedRows.map
    (Row.relink place.label.handle (· ++ (rowOf source.tree).links))
  -- The moved branches have no row of the target, so relinking the target leaves their rows.
  rw [List.map_append, relink_absent outsideBranches] at relinked
  rw [transferred]
  rw [List.perm_iff_count] at balance relinked ⊢
  intro row
  have first := balance row
  have second := relinked row
  simp only [emptied, List.flatMap_append, List.count_append] at first second ⊢
  omega

/-- Changing what a node carries changes its row and no links. -/
theorem update_rows (handle : Handle) (change : Node → Node) :
    (document.updateNode handle change).rows = document.rows.map (Row.update handle change) := by
  have relabelled (relabel : Entry → Entry) (keeps : ∀ entry, (relabel entry).handle = entry.handle)
      (tree : Tree Entry) :
      treeRows (tree.map relabel) =
        (treeRows tree).map fun row => ⟨relabel row.entry, row.links⟩ := by
    have top (subtree : Tree Entry) :
        rowOf (subtree.map relabel) = ⟨relabel (rowOf subtree).entry, (rowOf subtree).links⟩ := by
      obtain ⟨label, branches⟩ := subtree
      have labels (child : Tree Entry) : (child.map relabel).label = relabel child.label := by
        cases child
        rfl
      simp [rowOf, Tree.map, Tree.mapBranches_eq, link, labels, keeps, Function.comp_def]
    rw [treeRows, Tree.subtrees_map, List.map_map, treeRows, List.map_map]
    exact List.map_congr_left fun subtree _ => top subtree
  have keeps (entry : Entry) : (if entry.handle = handle then
      { entry with node := change entry.node } else entry).handle = entry.handle := by
    split <;> rfl
  simp only [updateNode, rows, List.flatMap_map, List.map_flatMap]
  refine List.flatMap_congr fun tree _ => ?_
  rw [relabelled _ keeps]
  rfl

end TreeDelta.Document
