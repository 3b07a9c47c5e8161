import TreeDelta.Proofs.Document.Links

/-!
# Putting one node in place of another

The two nodes may be siblings, in either order, or hang in different trees. All of these cases come
to the same when the links are looked at: the link to the other node is struck, wherever it is, and
then the link to the node leads to the other node instead. Where the node stands among its siblings
does not matter for that. Last, the links of the node itself go behind those of the other one.

So the links afterwards are those from before, but for the one that led to the other node, between
the nodes that stand where their ends have stood. From this the parents and the keys are read off.
-/

namespace TreeDelta.Document

open Editing

/-- The node that stands where a node has stood when another one has been put in place of one. -/
def instead (node other handle : Handle) : Handle :=
  if handle = node then other else handle

/-- Where the node has stood, the other one stands. -/
@[simp] theorem instead_node (node other : Handle) : instead node other node = other := if_pos rfl

/-- Where another node has stood, it stands. -/
theorem instead_else {node handle : Handle} (other : Handle) (different : handle ≠ node) :
    instead node other handle = handle :=
  if_neg different

/-- Links that lead to another node instead of to one. -/
def relinked (node other : Handle) (links : List (String × Handle)) : List (String × Handle) :=
  links.map fun link => (link.1, instead node other link.2)

/-- The links of a node when the link to the other node has been struck and then the link to the
node leads to the other one. -/
def linksInstead (document : Document) (node other upper : Handle) : List (String × Handle) :=
  relinked node other ((document.links upper).filter fun link => link.2 ≠ other)

/-- Whether one of two nodes hangs below the other. -/
def InLine (document : Document) (node other : Handle) : Prop :=
  document.Hangs node other ∨ document.Hangs other node

/-! ### Links that lead elsewhere -/

section Relinked

variable {node : Handle} {links : List (String × Handle)}

/-- Links of which none leads to the node stay as they are. -/
theorem relinked_absent (other : Handle) (absent : ∀ link ∈ links, link.2 ≠ node) :
    relinked node other links = links := by
  conv_rhs => rw [← List.map_id links]
  refine List.map_congr_left fun link member => ?_
  rw [instead_else other (absent link member), id]

/-- The nodes that the links lead to. -/
theorem relinked_handles (node other : Handle) (links : List (String × Handle)) :
    (relinked node other links).map Prod.snd = (links.map Prod.snd).map (instead node other) := by
  simp [relinked]

/-- When the one link to the node is struck and a link to another node put in at its place, under
the same key, then the link leads to the other node instead. -/
theorem relinked_at (different : (links.map Prod.snd).Nodup) (other : Handle) {index : Nat}
    {relation : String} (here : links[index]? = some (relation, node)) :
    (links.filter fun link => link.2 ≠ node).insertIdx index (relation, other) =
      relinked node other links := by
  induction links generalizing index with
  | nil => simp at here
  | cons first rest inductionHypothesis =>
    rw [List.map_cons, List.nodup_cons] at different
    cases index with
    | zero =>
      obtain rfl : first = (relation, node) := by simpa using here
      have gone : node ∉ rest.map Prod.snd := different.1
      have absent : ∀ link ∈ rest, link.2 ≠ node := fun link member same =>
        gone (same ▸ List.mem_map_of_mem member)
      rw [List.filter_cons_of_neg (by simp), struck_absent absent, List.insertIdx_zero]
      conv_lhs => rw [← relinked_absent other absent]
      simp [relinked, instead]
    | succ index =>
      have later : rest[index]? = some (relation, node) := by simpa using here
      have notFirst : first.2 ≠ node := fun same =>
        different.1 (same ▸ List.mem_map_of_mem (List.mem_of_getElem? later))
      rw [List.filter_cons_of_pos (by simpa using notFirst), List.insertIdx_succ_cons,
        inductionHypothesis different.2 later]
      simp [relinked, instead, notFirst]

end Relinked

variable {document : Document} {node other : Handle}

/-! ### Giving the slot away -/

/-- When the slot of a node has been given to another one, the link to the node leads to the other
one instead.

Without a parent the node has no link to it and nothing happens. With one, its link is taken out and
one to the other node put in at the same index and under the same key, which is the same as
exchanging the handle in the link. -/
theorem WellFormed.slot_links (wellFormed : document.WellFormed)
    (clear : document.replaceFault? node other = none) (upper : Handle) :
    (perform (giveSlot node other) (document.detach other)).2.links upper =
      document.linksInstead node other upper := by
  have without := wellFormed.detach other
  have unique := without.handlesDiffer
  rw [linksInstead, ← detach_links wellFormed.handlesDiffer]
  have elsewhere {above : Handle} (notParent : (document.detach other).parent? node ≠ some above) :
      ∀ link ∈ (document.detach other).links above, link.2 ≠ node :=
    no_link fun child => notParent ((parent_iff unique _ _).mpr child)
  rw [perform_give_slot]
  cases found : (document.detach other).parent? node with
  | none =>
    have nowhere : (document.detach other).parent? node ≠ some upper := by simp [found]
    exact (relinked_absent other (elsewhere nowhere)).symm
  | some parent =>
    obtain ⟨index, relation, indexFound, relationFound, -⟩ :=
      slot_of_parent unique (without.relations_nodup parent) found
    obtain ⟨child, ready⟩ := wellFormed.slot_given clear found indexFound relationFound
    simp only [indexFound, relationFound, perform_remove_child, child, perform_add_child_at, ready]
    -- The other node has been taken out before, so there is no link to it that could be struck.
    have struck (above : Handle) :
        (((document.detach other).detach node).links above).filter (fun link => link.2 ≠ other) =
          ((document.detach other).links above).filter fun link => link.2 ≠ node := by
      rw [detach_links unique]
      refine struck_absent fun link member => ?_
      have before := List.mem_of_mem_filter member
      rw [detach_links wellFormed.handlesDiffer] at before
      exact of_decide_eq_true (List.mem_filter.mp before).2
    rw [links_added (without.detach node).handlesDiffer ready, struck, struck]
    split
    · next here =>
      subst here
      refine relinked_at ?_ other (link_at unique child relationFound)
      rw [← children_eq]
      exact children_nodup unique upper
    · next notParent =>
      have absent := elsewhere fun above => notParent (Option.some.inj (above.symm.trans found))
      rw [relinked_absent other absent, struck_absent absent]

/-! ### The document that is left -/

/-- Adding a child leaves the root and gives no handle. -/
theorem add_frame (parent : Handle) (index : Nat) (relation? : Option String) (child : Handle)
    (document : Document) :
    (perform (addChildAt parent index relation? child) document).2.root = document.root ∧
      (perform (addChildAt parent index relation? child) document).2.next = document.next := by
  rw [perform_add_child_at]
  split
  · exact ⟨rfl, rfl⟩
  · simp only [attach_root, detach_root, attach_next, detach_next, and_self]

/-- Giving the slot of a node to another one leaves the root and gives no handle. -/
theorem give_slot_frame (node other : Handle) (document : Document) :
    (perform (giveSlot node other) document).2.root = document.root ∧
      (perform (giveSlot node other) document).2.next = document.next := by
  rw [perform_give_slot]
  split
  · next parent index relation _ _ _ =>
    rw [perform_remove_child]
    cases document.child? parent index with
    | none => exact ⟨rfl, rfl⟩
    | some child =>
      obtain ⟨root, next⟩ := add_frame parent index (some relation) other (document.detach child)
      exact ⟨root.trans (detach_root child), next.trans (detach_next child)⟩
  · exact ⟨rfl, rfl⟩

/-- Making another node the root if one is changes the root alone. -/
theorem switch_root_left (node other : Handle) (document : Document) :
    (perform (switchRoot node other) document).2 =
      { document with root := instead node other document.root } := by
  simp only [switchRoot, perform_modify, instead]
  split
  · rfl
  · rfl

/-- When one node is put in place of another without a fault, the branches of the node are moved
after its slot has been given away, and the other node is the root if the node was. -/
theorem WellFormed.replace_left (wellFormed : document.WellFormed) (different : node ≠ other)
    (clear : document.replaceFault? node other = none) :
    (perform (replaceWith node other) document).2 =
      { (perform (giveSlot node other) (document.detach other)).2.transferBranches node other with
        root := instead node other document.root } := by
  have result := wellFormed.slot_result clear
  have root := (give_slot_frame node other (document.detach other)).1.trans (detach_root other)
  rw [perform_replace_with, if_neg different]
  simp only [clear]
  generalize perform (giveSlot node other) (document.detach other) = given at result root ⊢
  obtain ⟨_, left⟩ := given
  obtain rfl := result
  replace root : left.root = document.root := root
  simp only [switch_root_left, transfer_root, root]

/-- The root is what stands at its place afterwards. -/
theorem WellFormed.replace_root (wellFormed : document.WellFormed) (different : node ≠ other)
    (clear : document.replaceFault? node other = none) :
    (perform (replaceWith node other) document).2.root = instead node other document.root := by
  rw [wellFormed.replace_left different clear]

/-- Putting one node in place of another gives no handle. -/
theorem WellFormed.replace_next (wellFormed : document.WellFormed) (different : node ≠ other)
    (clear : document.replaceFault? node other = none) :
    (perform (replaceWith node other) document).2.next = document.next := by
  rw [wellFormed.replace_left different clear]
  exact (give_slot_frame node other (document.detach other)).2.trans (detach_next other)

/-- Putting one node in place of another makes or loses no node. -/
theorem WellFormed.replace_handles (wellFormed : document.WellFormed) (different : node ≠ other)
    (clear : document.replaceFault? node other = none) :
    (perform (replaceWith node other) document).2.handles.Perm document.handles := by
  have slotted := wellFormed.slotted node other
  obtain ⟨nodeLeft, otherLeft, outside⟩ := slotted.movable wellFormed.handlesDiffer clear
  have moved := transfer_handles slotted.wellFormed.handlesDiffer nodeLeft otherLeft outside
  rw [wellFormed.replace_left different clear]
  exact moved.trans slotted.handles

/-! ### The links afterwards -/

/-- When one node has been put in place of another, the links of every node but the other one lead
to the other node instead of to the node, and then those of the node have gone behind those of the
other. -/
theorem WellFormed.links_moved (wellFormed : document.WellFormed) (different : node ≠ other)
    (clear : document.replaceFault? node other = none) (upper : Handle) :
    (perform (replaceWith node other) document).2.links upper =
      if upper = other then
        document.linksInstead node other other ++ document.linksInstead node other node
      else if upper = node then [] else document.linksInstead node other upper := by
  have slotted := wellFormed.slotted node other
  obtain ⟨nodeLeft, otherLeft, outside⟩ := slotted.movable wellFormed.handlesDiffer clear
  have moved := transfer_links slotted.wellFormed.handlesDiffer nodeLeft otherLeft outside upper
  simp only [wellFormed.slot_links clear] at moved
  rw [wellFormed.replace_left different clear]
  exact moved

/-- Neither of two nodes hangs below the other if nothing speaks against putting one in place of
the other. -/
theorem replace_apart (unique : document.handles.Nodup)
    (clear : document.replaceFault? node other = none) : ¬ document.InLine node other := by
  obtain ⟨nodeHere, otherHere, notBelow, notAbove, -⟩ := replace_fault_none clear
  rintro (below | above)
  · rw [ancestor_of_hangs unique nodeHere below] at notBelow
    cases notBelow
  · rw [ancestor_of_hangs unique otherHere above] at notAbove
    cases notAbove

/-- Neither of the two nodes is a child of one of them. -/
theorem apart_children (unique : document.handles.Nodup) (apart : ¬ document.InLine node other)
    {upper : Handle} (either : upper = node ∨ upper = other) :
    node ∉ document.children upper ∧ other ∉ document.children upper := by
  obtain rfl | rfl := either
  · exact ⟨not_own_child unique _, fun child => apart (.inl (.single child))⟩
  · exact ⟨fun child => apart (.inr (.single child)), not_own_child unique _⟩

/-- When one node has been put in place of another, the other node has the links of both, its own
before those of the node. -/
theorem WellFormed.links_received (wellFormed : document.WellFormed) (different : node ≠ other)
    (clear : document.replaceFault? node other = none) :
    (perform (replaceWith node other) document).2.links other =
      document.links other ++ document.links node := by
  have unique := wellFormed.handlesDiffer
  have spared {upper : Handle} (either : upper = node ∨ upper = other) :
      document.linksInstead node other upper = document.links upper := by
    obtain ⟨nodeAbsent, otherAbsent⟩ := apart_children unique (replace_apart unique clear) either
    rw [linksInstead, struck_absent (no_link otherAbsent),
      relinked_absent other (no_link nodeAbsent)]
  rw [wellFormed.links_moved different clear, if_pos rfl, spared (.inl rfl), spared (.inr rfl)]

/-- A link that leads to a node instead has led to the node at whose place it stands. -/
theorem mem_links_instead {upper lower : Handle} {relation : String} :
    (relation, lower) ∈ document.linksInstead node other upper ↔
      ∃ below, (relation, below) ∈ document.links upper ∧ below ≠ other ∧
        instead node other below = lower := by
  simp [linksInstead, relinked, and_assoc]

/-- After one node has been put in place of another, every link was there before, but between the
nodes that stand where its two ends stood. The link to the other node is gone. -/
theorem WellFormed.replace_linked (wellFormed : document.WellFormed) (different : node ≠ other)
    (clear : document.replaceFault? node other = none) {upper lower : Handle} {relation : String} :
    (relation, lower) ∈ (perform (replaceWith node other) document).2.links upper ↔
      ∃ above below, (relation, below) ∈ document.links above ∧ below ≠ other ∧
        instead node other below = lower ∧ instead node other above = upper := by
  rw [wellFormed.links_moved different clear]
  constructor
  · intro linked
    split at linked
    · next atOther =>
      subst atOther
      obtain own | received := List.mem_append.mp linked
      · obtain ⟨below, before, notOther, same⟩ := mem_links_instead.mp own
        exact ⟨upper, below, before, notOther, same, instead_else upper different.symm⟩
      · obtain ⟨below, before, notOther, same⟩ := mem_links_instead.mp received
        exact ⟨node, below, before, notOther, same, instead_node node upper⟩
    split at linked
    · cases linked
    · next notNode =>
      obtain ⟨below, before, notOther, same⟩ := mem_links_instead.mp linked
      exact ⟨upper, below, before, notOther, same, instead_else other notNode⟩
  · rintro ⟨above, below, before, notOther, same, rfl⟩
    have linked := mem_links_instead.mpr ⟨below, before, notOther, same⟩
    by_cases atNode : above = node
    · rw [atNode, instead_node, if_pos rfl]
      exact List.mem_append_right _ (atNode ▸ linked)
    rw [instead_else other atNode]
    by_cases atOther : above = other
    · rw [if_pos atOther]
      exact List.mem_append_left _ (atOther ▸ linked)
    · rwa [if_neg atOther, if_neg atNode]

/-! ### Keys and parents afterwards -/

/-- Two nodes besides the other one do not come to stand at the same place. -/
theorem instead_injective {first second : Handle} (firstOther : first ≠ other)
    (secondOther : second ≠ other)
    (same : instead node other first = instead node other second) : first = second := by
  by_cases firstNode : first = node
  · by_cases secondNode : second = node
    · rw [firstNode, secondNode]
    · rw [firstNode, instead_node, instead_else other secondNode] at same
      exact absurd same.symm secondOther
  · rw [instead_else other firstNode] at same
    by_cases secondNode : second = node
    · rw [secondNode, instead_node] at same
      exact absurd same firstOther
    · rwa [instead_else other secondNode] at same

/-- What stands at the place of a node afterwards has the key that the node has had. -/
theorem WellFormed.replace_relation (wellFormed : document.WellFormed) (different : node ≠ other)
    (clear : document.replaceFault? node other = none) {handle : Handle}
    (notOther : handle ≠ other) :
    (perform (replaceWith node other) document).2.relation? (instead node other handle) =
      document.relation? handle := by
  have unique := wellFormed.handlesDiffer
  have afterUnique := (wellFormed.replace_handles different clear).nodup_iff.mpr unique
  refine relation_ext unique afterUnique fun relation => ?_
  simp only [wellFormed.replace_linked different clear]
  constructor
  · rintro ⟨upper, above, below, linked, belowOther, same, -⟩
    obtain rfl := instead_injective belowOther notOther same
    exact ⟨above, linked⟩
  · rintro ⟨above, linked⟩
    exact ⟨instead node other above, above, handle, linked, notOther, rfl, rfl⟩

/-- What stands at the place of a node afterwards has what stands at the place of its parent as its
parent. -/
theorem WellFormed.replace_parent (wellFormed : document.WellFormed) (different : node ≠ other)
    (clear : document.replaceFault? node other = none) {handle : Handle}
    (notOther : handle ≠ other) :
    (perform (replaceWith node other) document).2.parent? (instead node other handle) =
      (document.parent? handle).map (instead node other) := by
  have unique := wellFormed.handlesDiffer
  have afterUnique := (wellFormed.replace_handles different clear).nodup_iff.mpr unique
  apply Option.ext
  intro upper
  rw [Option.map_eq_some_iff]
  simp only [parent_link_iff afterUnique, parent_link_iff unique,
    wellFormed.replace_linked different clear]
  constructor
  · rintro ⟨relation, above, below, linked, belowOther, same, rfl⟩
    obtain rfl := instead_injective belowOther notOther same
    exact ⟨above, ⟨relation, linked⟩, rfl⟩
  · rintro ⟨above, ⟨relation, linked⟩, rfl⟩
    exact ⟨relation, above, handle, linked, notOther, rfl, rfl⟩

/-- A node in whose place another one has been put is left without a parent. -/
theorem WellFormed.replace_parentless (wellFormed : document.WellFormed) (different : node ≠ other)
    (clear : document.replaceFault? node other = none) :
    (perform (replaceWith node other) document).2.parent? node = none := by
  have unique := wellFormed.handlesDiffer
  have afterUnique := (wellFormed.replace_handles different clear).nodup_iff.mpr unique
  rw [Option.eq_none_iff_forall_ne_some]
  intro upper above
  obtain ⟨relation, linked⟩ := (parent_link_iff afterUnique).mp above
  obtain ⟨-, below, -, -, same, -⟩ := (wellFormed.replace_linked different clear).mp linked
  by_cases atNode : below = node
  · rw [atNode, instead_node] at same
    exact different same.symm
  · rw [instead_else other atNode] at same
    exact atNode same

end TreeDelta.Document
