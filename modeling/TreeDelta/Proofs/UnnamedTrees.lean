import TreeDelta.Proofs.AppendedSubtree
import TreeDelta.Proofs.OwnSlots
import TreeDelta.Proofs.Tree.TopDown

/-!
# Trees without ids

Where no node has an id, a node is known by the way down to it and by nothing else. Its address is
the list of indices, kinds and values on this way, so two nodes have the same address exactly if
their ways down agree node by node, whatever the tops are. No node has a counterpart, no two nodes
of a tree share an address, and nothing can be moved.

What the comparison of two sets of addresses finds is then what one finds by walking down both
trees: the nodes of the left tree that are missing in the right one are deleted, those of the right
tree that are missing in the left one are inserted, each in the pre-order of its own tree.
-/

namespace TreeDelta

/-- Whether no node of a tree has an id. -/
def Tree.Unnamed (tree : SyntaxTree) : Prop := ∀ node ∈ tree.preorder, node.id? = none

instance (tree : SyntaxTree) : Decidable tree.Unnamed :=
  inferInstanceAs (Decidable (∀ node ∈ tree.preorder, node.id? = none))

variable {tree other left right : SyntaxTree}

/-- The places of such a tree have no ids. -/
theorem Tree.Unnamed.label (unnamed : tree.Unnamed) {place : Place Node}
    (listed : place ∈ (Place.top tree).preorder) : place.label.id? = none :=
  unnamed place.label ((Place.mem_labels_iff _ _).mpr ⟨place, listed, rfl⟩)

/-- Where there are no ids, none is repeated. -/
theorem Tree.Unnamed.distinct (unnamed : tree.Unnamed) : tree.DistinctIds := by
  have none : tree.ids = [] := List.filterMap_eq_nil_iff.mpr unnamed
  rw [Tree.DistinctIds, none]
  exact List.nodup_nil

/-- Without ids, places have the same address exactly if they are alike.

The induction is on the steps above the place. Without ids an address is made of the kind, the value
and the index of every step up to the top, and these are what being alike compares. -/
theorem Address.of_place_alike (unnamed : tree.Unnamed) (otherUnnamed : other.Unnamed)
    {place counterpart : Place Node} (listed : place ∈ (Place.top tree).preorder)
    (counterpartListed : counterpart ∈ (Place.top other).preorder) :
    ofPlace place = ofPlace counterpart ↔ Tree.Alike place counterpart := by
  obtain ⟨subtree, above⟩ := place
  obtain ⟨counterpartTree, counterpartAbove⟩ := counterpart
  have here := unnamed.label listed
  have there := otherUnnamed.label counterpartListed
  induction above generalizing subtree counterpartTree counterpartAbove with
  | nil =>
    rw [of_place_top here, eq_comm, of_place_eq_top_iff]
    constructor
    · rintro ⟨atTop, -⟩
      obtain rfl : counterpartAbove = [] := atTop
      exact .top rfl
    · rintro ⟨⟩
      exact ⟨rfl, there⟩
  | cons up further inductionHypothesis =>
    obtain ⟨parentListed, -⟩ := Place.parent_listed listed
    rw [of_place_below here]
    cases counterpartAbove with
    | nil =>
      rw [of_place_top there]
      exact iff_of_false Address.noConfusion fun alike => nomatch alike
    | cons otherUp otherFurther =>
      obtain ⟨otherParentListed, -⟩ := Place.parent_listed counterpartListed
      have parents := inductionHypothesis up.tree parentListed otherUp.tree otherFurther
        otherParentListed (unnamed.label parentListed) (otherUnnamed.label otherParentListed)
      rw [of_place_below there, step, step, Address.child.injEq]
      constructor
      · rintro ⟨index, kind, value, above⟩
        exact .child (parents.mp above) index ((Node.agrees_iff _ _).mpr ⟨kind.symm, value.symm⟩)
      · rintro (_ | ⟨above, index, labels⟩)
        obtain ⟨kind, value⟩ := (Node.agrees_iff _ _).mp labels
        exact ⟨index, kind.symm, value.symm, parents.mpr above⟩

/-- Without ids, the slot of a place has the address of the place. -/
theorem Slot.left_unnamed {place : Place Node} (unnamed : place.label.id? = none)
    (below : place.above ≠ []) : ofLeft? place = some ⟨Address.ofPlace place, place⟩ := by
  obtain ⟨subtree, above⟩ := place
  cases above with
  | nil => exact absurd rfl below
  | cons up further =>
    rw [Address.of_place_below unnamed]
    rfl

namespace Extraction

/-- Without ids, every place but the top has a slot that no other one has. -/
theorem left_slots_unnamed (unnamed : tree.Unnamed) :
    leftSlots (Place.top tree) = (Place.top tree).preorder.filterMap Slot.ofLeft? := by
  have apart := Slot.left_positional.tells_apart unnamed.distinct fun place _ =>
    Address.of_place_leads place
  exact first_slots_of_nodup apart.addresses_nodup [] fun _ _ => List.not_mem_nil

/-- Without ids, the other tree lacks the address of a slot exactly if its node is missing there. -/
theorem address_lacked (unnamed : tree.Unnamed) (otherUnnamed : other.Unnamed) {place : Place Node}
    (listed : place ∈ (Place.top tree).preorder) (below : place.above ≠ []) :
    Address.ofPlace place ∉ (leftSlots (Place.top other)).map Slot.address ↔
      Tree.lacks tree other place.path = true := by
  rw [← Bool.not_eq_false, Tree.present_iff listed, not_iff_not, left_slots_unnamed otherUnnamed,
    List.mem_map]
  constructor
  · rintro ⟨slot, member, same⟩
    obtain ⟨counterpart, counterpartListed, found⟩ := List.mem_filterMap.mp member
    have counterpartBelow : counterpart.above ≠ [] := by
      intro atTop
      simp [Slot.ofLeft?, atTop] at found
    rw [Slot.left_unnamed (otherUnnamed.label counterpartListed) counterpartBelow] at found
    obtain rfl := Option.some.inj found
    exact ⟨counterpart, counterpartListed,
      (Address.of_place_alike unnamed otherUnnamed listed counterpartListed).mp same.symm⟩
  · rintro ⟨counterpart, counterpartListed, alike⟩
    have same := (Address.of_place_alike unnamed otherUnnamed listed counterpartListed).mpr alike
    have counterpartBelow : counterpart.above ≠ [] := by
      cases alike with
      | top => exact absurd rfl below
      | child => exact List.cons_ne_nil _ _
    exact ⟨_, List.mem_filterMap.mpr ⟨counterpart, counterpartListed,
      Slot.left_unnamed (otherUnnamed.label counterpartListed) counterpartBelow⟩, same.symm⟩

/-- Without ids, the slots that the other tree lacks are those of the nodes that are found missing
by walking down both trees. -/
theorem difference_unnamed (unnamed : tree.Unnamed) (otherUnnamed : other.Unnamed) :
    without (leftSlots (Place.top tree)) (leftSlots (Place.top other)) =
      (Tree.lacked tree other).filterMap Slot.ofLeft? := by
  rw [Tree.lacked_eq, left_slots_unnamed unnamed, without, List.filter_filterMap,
    List.filterMap_filter]
  refine List.filterMap_congr fun place listed => ?_
  by_cases atTop : place.above = []
  · simp [Slot.ofLeft?, atTop]
  · have lacked := address_lacked unnamed otherUnnamed listed atTop
    rw [Slot.left_unnamed (unnamed.label listed) atTop]
    by_cases missing : Tree.lacks tree other place.path = true
    · rw [if_pos missing, Option.filter_some, if_pos (by simpa using lacked.mpr missing)]
    · rw [if_neg missing, Option.filter_some, if_neg (by simpa using mt lacked.mp missing)]

/-- Removed slots whose nodes have no ids are deleted, in order, and the added slots are
inserted. -/
theorem match_moves_unnamed {removed : List Slot} (added : List Slot)
    (unnamed : ∀ slot ∈ removed, slot.place.label.id? = none) :
    matchMoves removed added = ⟨[], removed, added⟩ := by
  induction removed with
  | nil => rfl
  | cons slot rest inductionHypothesis =>
    rw [List.forall_mem_cons] at unnamed
    have unmatched : match? slot added = none := by rw [match?, unnamed.1, Option.bind_none]
    rw [matchMoves, unmatched]
    simp only [inductionHypothesis unnamed.2]

/-- The slots of missing nodes stand for exactly these nodes. -/
theorem lacked_places (tree other : SyntaxTree) :
    ((Tree.lacked tree other).filterMap Slot.ofLeft?).map Slot.place =
      (Place.top tree).preorder.filter fun place => Tree.lacks tree other place.path := by
  rw [Tree.lacked_eq]
  refine slots_of_places Slot.left_positional Slot.left_place fun place member atTop => ?_
  have missing := (List.mem_filter.mp member).2
  rw [Place.path, atTop, List.map_nil, List.reverse_nil, Tree.lacks_top] at missing
  cases missing

/-- The script of two trees without ids is what a plain comparison from the top down finds: it
deletes the nodes of the left tree that are missing in the right one, then inserts those of the
right tree that are missing in the left one, and moves nothing. A node is missing if the other tree
has no node at its path, or if somewhere on the way down to it, the node itself included, the two
trees have nodes that differ in kind or value.

Without ids there are no counterparts, so the right tree is addressed on its own. An address that
the other tree does not have belongs to a node that is missing there, and without ids no two slots
make a move. -/
theorem unnamed_compared_top_down (left right : SyntaxTree) (leftUnnamed : left.Unnamed)
    (rightUnnamed : right.Unnamed) :
    let deleted := (Tree.lacked left right).filterMap Slot.ofLeft?
    let inserted := (Tree.lacked right left).filterMap Slot.ofLeft?
    byId (Place.top left) (Place.top right) =
        .ok (deleted.map Edit.deletion ++ inserted.map Edit.insertion) ∧
      deleted.map Slot.place = (Place.top left).preorder.filter
        (fun place => Tree.lacks left right place.path) ∧
      inserted.map Slot.place = (Place.top right).preorder.filter
        (fun place => Tree.lacks right left place.path) := by
  intro deleted inserted
  refine ⟨?_, lacked_places left right, lacked_places right left⟩
  have noneShared : ∀ node ∈ right.preorder, node.id?.isSome → node ∈ left.preorder := by
    intro node member named
    rw [rightUnnamed node member] at named
    cases named
  obtain ⟨mapping, extracted, own⟩ :=
    by_id_own leftUnnamed.distinct rightUnnamed.distinct noneShared
  have unnamed : ∀ slot ∈ deleted, slot.place.label.id? = none := by
    intro slot member
    have listed : slot.place ∈ deleted.map Slot.place := List.mem_map_of_mem member
    rw [lacked_places left right] at listed
    exact leftUnnamed.label (List.mem_of_mem_filter listed)
  rw [extracted, withCorrespondence, own, difference_unnamed leftUnnamed rightUnnamed,
    difference_unnamed rightUnnamed leftUnnamed, match_moves_unnamed _ unnamed]
  rfl

/-- Where a loop stands in the place of a block, both go with all that is below them, although their
calls are the same. The call behind them stays. -/
theorem loop_for_block :
    ∃ deleted inserted : List Slot,
      byId
        (Place.top (.node (Node.bare "list")
          [("0", .node (Node.bare "block") [("0", .leaf (Node.bare "call"))]),
            ("1", .leaf (Node.bare "call"))]))
        (Place.top (.node (Node.bare "list")
          [("0", .node (Node.bare "loop") [("0", .leaf (Node.bare "call"))]),
            ("1", .leaf (Node.bare "call"))])) =
          .ok (deleted.map Edit.deletion ++ inserted.map Edit.insertion) ∧
      deleted.map (fun slot => slot.place.path) = [[0], [0, 0]] ∧
      inserted.map (fun slot => slot.place.path) = [[0], [0, 0]] := by
  obtain ⟨extracted, -⟩ := unnamed_compared_top_down
    (.node (Node.bare "list")
      [("0", .node (Node.bare "block") [("0", .leaf (Node.bare "call"))]),
        ("1", .leaf (Node.bare "call"))])
    (.node (Node.bare "list")
      [("0", .node (Node.bare "loop") [("0", .leaf (Node.bare "call"))]),
        ("1", .leaf (Node.bare "call"))])
    (by decide) (by decide)
  exact ⟨_, _, extracted, by decide, by decide⟩

end Extraction

end TreeDelta
