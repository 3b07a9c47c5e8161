import TreeDelta.Proofs.Document.ReplacedNode
import TreeDelta.Proofs.Document.Restored

/-!
# Operations that undo each other

A child that has been taken out can be put back at its index and under its key, and a node without a
parent that has been added can be taken out again. A node without a parent and without children that
has been put in place of another one can be replaced by that one again, unless it was the root
before. In each of these cases the document is the same again in every respect.

For all of them it is enough to follow the links. Taking out strikes a link and putting in brings
one; putting one node in place of another leads links elsewhere, and the way back leads them back.
-/

namespace TreeDelta.Document

open Editing

variable {document : Document}

/-! ### Taking out and putting in -/

/-- A link that has been put in is struck with the node it leads to. -/
theorem struck_inserted {links : List (String × Handle)} {index : Nat} (relation : String)
    (handle : Handle) :
    (links.insertIdx index (relation, handle)).filter (fun link => link.2 ≠ handle) =
      links.filter fun link => link.2 ≠ handle := by
  induction links generalizing index with
  | nil => cases index <;> simp
  | cons first rest inductionHypothesis =>
    cases index with
    | zero => simp
    | succ index => simp only [List.insertIdx_succ_cons, List.filter_cons, inductionHypothesis]

/-- A link to a node that is struck and put back at its place is where it was. -/
theorem relinked_same (handle : Handle) (links : List (String × Handle)) :
    relinked handle handle links = links := by
  have same (other : Handle) : instead handle handle other = other := by
    unfold instead
    split
    · next here => exact here.symm
    · rfl
  simp [relinked, same]

/-- A node without a parent is no child. -/
theorem loose_no_child (unique : document.handles.Nodup) {handle : Handle}
    (loose : document.parent? handle = none) (upper : Handle) :
    handle ∉ document.children upper := by
  rw [← parent_iff unique, loose]
  exact nofun

/-- The links that are there are left when a node is struck from them that is no child. -/
theorem links_apart {upper lower : Handle} (absent : lower ∉ document.children upper) :
    (document.links upper).filter (fun link => link.2 ≠ lower) = document.links upper :=
  struck_absent (no_link absent)

/-- The child at an index is taken out. It can be put back there under its key.

Nothing speaks against it, since the child has hung there. After both, the links of the parent are
those with the child taken out and put in at its old index, hence the old ones, and the links of the
others never had the child. -/
theorem WellFormed.put_back (wellFormed : document.WellFormed) {parent child : Handle} {index : Nat}
    {relation : String} (found : document.child? parent index = some child)
    (keyed : document.relation? child = some relation) :
    (document.detach child).addFault? parent index (some relation) child = none ∧
      Restored document
        (((document.detach child).detach child).attach parent index relation child) := by
  have unique := wellFormed.handlesDiffer
  have freed := (wellFormed.detach child).handlesDiffer
  have detached := detach_handles unique child
  have above := ((child_iff unique).mp found).1
  have member := (parent_iff unique _ _).mp above
  have here := link_at unique found keyed
  have lookedUp := lookup_child (wellFormed.relations_nodup parent) (List.mem_of_getElem? here)
  obtain ⟨_, _, -, childPlace⟩ := (child_at_iff unique).mp found
  have childHere : child ∈ document.handles := handle_of_place childPlace
  have clear : (document.detach child).addFault? parent index (some relation) child = none := by
    refine wellFormed.slot_free found lookedUp childHere (fun below => ?_) ?_
    · have deeper := depth_hangs unique below
      have lower := depth_child unique member
      omega
    · rw [detach_children unique]
      simp
  refine ⟨clear, restored_of_links unique ?_ ?_ ?_ (fun upper => ?_) fun handle => ?_⟩
  · rw [attach_root, detach_root, detach_root]
  · rw [attach_next, detach_next, detach_next]
  · exact (add_handles freed clear relation).trans detached
  · have struck (upper : Handle) : ((document.detach child).links upper).filter
        (fun link => link.2 ≠ child) =
          (document.links upper).filter fun link => link.2 ≠ child := by
      rw [detach_links unique, List.filter_filter]
      simp only [Bool.and_self]
    rw [links_added freed clear, struck, struck]
    split
    · next atParent =>
      subst atParent
      have different : ((document.links upper).map Prod.snd).Nodup := by
        rw [← children_eq]
        exact children_nodup unique upper
      rw [relinked_at different child here, relinked_same]
    · next elsewhere =>
      refine links_apart fun again => elsewhere ?_
      exact Option.some.inj (((parent_iff unique _ _).mpr again).symm.trans above)
  · rw [add_nodes freed clear, detach_nodes unique]

/-- A node without a parent that has been added is the child at its index. When it is taken out
again, the document is as it was. -/
theorem WellFormed.taken_back (wellFormed : document.WellFormed) {parent child : Handle}
    {index : Nat} {relation? : Option String}
    (clear : document.addFault? parent index relation? child = none)
    (loose : document.parent? child = none) (relation : String) :
    ((document.detach child).attach parent index relation child).child? parent index = some child ∧
      Restored document (((document.detach child).attach parent index relation child).detach
        child) := by
  have unique := wellFormed.handlesDiffer
  have added := wellFormed.added clear relation
  have addedUnique := added.handles.nodup_iff.mpr unique
  have nowhere := loose_no_child unique loose
  have elsewhere : document.parent? child ≠ some parent := by simp [loose]
  refine ⟨(add_children_entered unique clear relation elsewhere).1,
    restored_of_links unique ?_ ?_ ?_ (fun upper => ?_) fun handle => ?_⟩
  · rw [detach_root, attach_root, detach_root]
  · rw [detach_next, attach_next, detach_next]
  · exact (detach_handles addedUnique child).trans added.handles
  · rw [detach_links addedUnique, links_added unique clear]
    split
    · next atParent =>
      rw [struck_inserted, links_apart (nowhere parent), links_apart (nowhere parent), atParent]
    · rw [links_apart (nowhere upper), links_apart (nowhere upper)]
  · rw [detach_nodes addedUnique, added.nodes]

/-- In every document that can be reached, a child that has been taken out is added without a fault
at the index and under the key that it has had, and then the document is the same again. And when a
node without a parent has been added without a fault, at any index and under a given key or a fresh
one, taking out the child at that index takes out this node, and then the document is the same
again.

`put_back` hangs the child where it has been, `taken_back` takes it out of the place that it has
been given. Both are equalities of links. -/
theorem removing_and_adding_undone (reached : Reachable document) (parent : Handle) (index : Nat) :
    (index < document.childCount parent →
      ∃ child relation, document.relation? child = some relation ∧
        let removed := perform (removeChild parent index) document
        let added := perform (addChildAt parent index (some relation) child) removed.2
        removed.1 = .ok child ∧ added.1 = .ok ⟨⟩ ∧ Restored document added.2) ∧
    ∀ relation? child, document.parent? child = none →
      let added := perform (addChildAt parent index relation? child) document
      let removed := perform (removeChild parent index) added.2
      added.1 = .ok ⟨⟩ → removed.1 = .ok child ∧ Restored document removed.2 := by
  have wellFormed := reached.well_formed
  have unique := wellFormed.handlesDiffer
  constructor
  · intro inside
    obtain ⟨child, found⟩ : ∃ child, document.child? parent index = some child :=
      ⟨_, List.getElem?_eq_getElem inside⟩
    obtain ⟨_, relation, -, keyed, -⟩ := slot_of_parent unique (wellFormed.relations_nodup parent)
      ((child_iff unique).mp found).1
    obtain ⟨clear, restored⟩ := wellFormed.put_back found keyed
    refine ⟨child, relation, keyed, ?_⟩
    simp only [perform_remove_child, found, perform_add_child_at, clear, true_and]
    exact restored
  · intro relation? child loose added removed succeeds
    have performed : added = _ := perform_add_child_at parent index relation? child document
    cases clear : document.addFault? parent index relation? child with
    | some fault =>
      rw [performed, clear] at succeeds
      cases succeeds
    | none =>
      obtain ⟨found, restored⟩ := wellFormed.taken_back clear loose
        (relation?.getD (freshRelation ((document.detach child).relations parent)))
      have taken : removed = _ := perform_remove_child parent index added.2
      simp only [clear] at performed
      simp only [performed, found] at taken
      rw [taken]
      exact ⟨rfl, restored⟩

/-- In a list of three items the second one is taken out and put back, and a new item is put between
the first two and taken out again. -/
theorem second_item_put_back :
    ∃ document : Document, document.Reachable ∧ 1 < document.childCount 0 ∧
      document.children 0 = [1, 2, 3] ∧ document.relation? 2 = some "1" ∧
      document.parent? 4 = none ∧
      (let removed := perform (removeChild 0 1) document
        let added := perform (addChildAt 0 1 (some "1") 2) removed.2
        removed.2.children 0 = [1, 3] ∧ added.1 = .ok ⟨⟩ ∧ Restored document added.2) ∧
      let added := perform (addChildAt 0 1 none 4) document
      let removed := perform (removeChild 0 1) added.2
      added.1 = .ok ⟨⟩ ∧ added.2.children 0 = [1, 4, 2, 3] ∧ removed.1 = .ok 4 ∧
        Restored document removed.2 := by
  let operations : List Operation :=
    List.replicate 3 (.appendNew 0 none (Node.bare "item")) ++ [.newNode (Node.bare "item")]
  let document := operations.foldl left (ofNode (Node.bare "list"))
  have reached : Reachable document :=
    List.foldlRecOn operations left (.made _) fun _ before operation _ => before.edited operation
  have room : 1 < document.childCount 0 := by decide +kernel
  have loose : document.parent? 4 = none := by decide +kernel
  have succeeds : (perform (addChildAt 0 1 none 4) document).1 = .ok ⟨⟩ := by decide +kernel
  have taken : (perform (removeChild 0 1) document).1 = .ok 2 := by decide +kernel
  have key : document.relation? 2 = some "1" := by decide +kernel
  obtain ⟨removing, adding⟩ := removing_and_adding_undone reached 0 1
  obtain ⟨child, relation, keyed, removed, added, restored⟩ := removing room
  obtain rfl := Except.ok.inj (taken.symm.trans removed)
  obtain rfl := Option.some.inj (key.symm.trans keyed)
  exact ⟨document, reached, room, by decide +kernel, key, loose,
    ⟨by decide +kernel, added, restored⟩, succeeds, by decide +kernel, adding none 4 loose succeeds⟩

/-! ### Putting in place of another and back -/

/-- A node without a parent and without children is not in line with any other one. -/
theorem lone_apart (unique : document.handles.Nodup) {node lone : Handle} (different : node ≠ lone)
    (loose : document.parent? lone = none) (childless : document.children lone = []) :
    ¬ document.InLine node lone := by
  rintro (below | above)
  · obtain same | ⟨upper, -, child⟩ := below.cases_tail
    · exact different same.symm
    · exact loose_no_child unique loose upper child
  · obtain same | ⟨lower, child, -⟩ := above.cases_head
    · exact different same.symm
    · rw [childless] at child
      cases child

/-- Nothing speaks against putting one node in place of another if neither hangs below the other and
they have no key in common. -/
theorem WellFormed.replace_clear (wellFormed : document.WellFormed) {node other : Handle}
    (nodeHere : node ∈ document.handles) (otherHere : other ∈ document.handles)
    (apart : ¬ document.InLine node other)
    (free : (document.relations node).Disjoint (document.relations other)) :
    document.replaceFault? node other = none := by
  have refused := wellFormed.replacing_refused nodeHere otherHere
  generalize document.replaceFault? node other = fault? at refused
  cases refused with
  | cycle line => exact absurd line apart
  | shared _ first => exact absurd free first.not_disjoint
  | clear => rfl

/-- A node without children has no links. -/
theorem links_childless {handle : Handle} (childless : document.children handle = []) :
    document.links handle = [] := by
  rw [children_eq] at childless
  exact List.map_eq_nil_iff.mp childless

/-- What stands where another node has stood and is replaced again is that node. -/
theorem instead_back {node other handle : Handle} (notOther : handle ≠ other) :
    instead other node (instead node other handle) = handle := by
  by_cases same : handle = node
  · rw [same, instead_node, instead_node]
  · rw [instead_else other same, instead_else node notOther]

/-- Links lead back to the node if they lead to the other one instead and none has led there. -/
theorem relinked_back {node other : Handle} {links : List (String × Handle)}
    (absent : ∀ link ∈ links, link.2 ≠ other) :
    relinked other node (relinked node other links) = links := by
  rw [relinked, relinked, List.map_map]
  conv_rhs => rw [← List.map_id links]
  exact List.map_congr_left fun link member => Prod.ext rfl (instead_back (absent link member))

section Lone

variable {node other : Handle}

/-- A node without a parent and without children can be put in place of every other one. -/
theorem WellFormed.lone_clear (wellFormed : document.WellFormed) (different : node ≠ other)
    (nodeHere : node ∈ document.handles) (otherHere : other ∈ document.handles)
    (loose : document.parent? other = none) (childless : document.children other = []) :
    document.replaceFault? node other = none := by
  refine wellFormed.replace_clear nodeHere otherHere
    (lone_apart wellFormed.handlesDiffer different loose childless) ?_
  rw [relations_eq document other, links_childless childless]
  exact List.disjoint_nil_right _

/-- When a node without a parent and without children has been put in place of another one, it has
the links of the other one, and what has led to the other one leads to it. -/
theorem WellFormed.lone_links (wellFormed : document.WellFormed) (different : node ≠ other)
    (clear : document.replaceFault? node other = none) (loose : document.parent? other = none)
    (childless : document.children other = []) (upper : Handle) :
    (perform (replaceWith node other) document).2.links upper =
      if upper = other then document.links node
      else if upper = node then [] else relinked node other (document.links upper) := by
  have absent := loose_no_child wellFormed.handlesDiffer loose upper
  by_cases atOther : upper = other
  · rw [atOther, if_pos rfl, wellFormed.links_received different clear, links_childless childless,
      List.nil_append]
  · rw [wellFormed.links_moved different clear, if_neg atOther, if_neg atOther, linksInstead,
      links_apart absent]

end Lone

/-- In every document that can be reached, a node that is not the root and has neither a parent nor
children can be put in place of any other node, also of the root, and that node can then be put in
its place. After this the document is the same again.

What has been replaced is now a node with neither a parent nor children, so the same two facts apply
in the other direction: nothing speaks against it, and in every link the one handle is exchanged for
the other. Exchanging it back gives every node the links that it has had, because no link has led to
the other node before. With equal links and nodes the document is restored. -/
theorem replacing_undone (reached : Reachable document) {node other : Handle}
    (different : node ≠ other) (notRoot : document.root ≠ other)
    (nodeHere : node ∈ document.handles) (otherHere : other ∈ document.handles)
    (loose : document.parent? other = none) (childless : document.children other = []) :
    let replaced := perform (replaceWith node other) document
    let back := perform (replaceWith other node) replaced.2
    replaced.1 = .ok ⟨⟩ ∧ back.1 = .ok ⟨⟩ ∧ Restored document back.2 := by
  intro replaced back
  have wellFormed := reached.well_formed
  have unique := wellFormed.handlesDiffer
  have clear := wellFormed.lone_clear different nodeHere otherHere loose childless
  have effect : Replaced document replaced.2 node other := wellFormed.replaced different clear
  have links : ∀ upper, replaced.2.links upper = _ :=
    wellFormed.lone_links different clear loose childless
  have afterFormed : replaced.2.WellFormed := wellFormed.replace node other
  -- Now the node is the one that has neither a parent nor children.
  have clearBack := afterFormed.lone_clear different.symm (effect.handles.mem_iff.mpr otherHere)
    (effect.handles.mem_iff.mpr nodeHere) effect.parentless effect.childless
  have effectBack : Replaced replaced.2 back.2 other node :=
    afterFormed.replaced different.symm clearBack
  have linksBack : ∀ upper, back.2.links upper = _ :=
    afterFormed.lone_links different.symm clearBack effect.parentless effect.childless
  refine ⟨wellFormed.replace_succeeds clear, afterFormed.replace_succeeds clearBack,
    restored_of_links unique ?_ ?_ (effectBack.handles.trans effect.handles) (fun upper => ?_)
    fun handle => (effectBack.nodes handle).trans (effect.nodes handle)⟩
  · rw [afterFormed.replace_root different.symm clearBack, wellFormed.replace_root different clear,
      instead_back notRoot]
  · exact (afterFormed.replace_next different.symm clearBack).trans
      (wellFormed.replace_next different clear)
  · rw [linksBack, links, if_pos rfl]
    split
    · next atNode => rw [atNode]
    next notNode =>
    split
    · next atOther => rw [atOther, links_childless childless]
    next notOther =>
    rw [links, if_neg notOther, if_neg notNode]
    exact relinked_back (no_link (loose_no_child unique loose upper))

/-- A new block is put in place of a list with an item, which is the root, and then the list is put
in place of the block. -/
theorem list_put_back :
    ∃ document : Document, document.Reachable ∧ document.root = 0 ∧ 0 ∈ document.handles ∧
      2 ∈ document.handles ∧ document.parent? 2 = none ∧ document.children 2 = [] ∧
      document.children 0 = [1] ∧
      let replaced := perform (replaceWith 0 2) document
      let back := perform (replaceWith 2 0) replaced.2
      replaced.1 = .ok ⟨⟩ ∧ replaced.2.root = 2 ∧ replaced.2.children 2 = [1] ∧
        back.1 = .ok ⟨⟩ ∧ Restored document back.2 := by
  let operations : List Operation :=
    [.appendNew 0 none (Node.bare "item"), .newNode (Node.bare "block")]
  let document := operations.foldl left (ofNode (Node.bare "list"))
  have reached : Reachable document :=
    List.foldlRecOn operations left (.made _) fun _ before operation _ => before.edited operation
  have root : document.root = 0 := by decide +kernel
  have listHere : 0 ∈ document.handles := by decide +kernel
  have blockHere : 2 ∈ document.handles := by decide +kernel
  have loose : document.parent? 2 = none := by decide +kernel
  have childless : document.children 2 = [] := by decide +kernel
  obtain ⟨replaced, back, restored⟩ :=
    replacing_undone reached (by decide) (by rw [root]; decide) listHere blockHere loose childless
  exact ⟨document, reached, root, listHere, blockHere, loose, childless, by decide +kernel,
    replaced, by decide +kernel, by decide +kernel, back, restored⟩

end TreeDelta.Document
