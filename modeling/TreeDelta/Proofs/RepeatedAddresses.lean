import TreeDelta.Proofs.Alignment.OrderedCorrespondence
import TreeDelta.Proofs.SlotBalance

/-!
# Nodes that are lost behind another one's address

A node of the right tree that has a counterpart without id is addressed by the place of the
counterpart in the left tree; a node that has none is addressed by its own place in the right tree.
The two places can be told by the same address, and then the children of both nodes, if they look
the same at the same index, have one slot between them. Only the first of several slots with one
address is kept, so the script says nothing of the nodes behind the others. This is the only way in
which a node gets lost: what a script inserts beyond what it deletes is the difference of the two
sizes, less the slots that are dropped on the right, and more by those dropped on the left.
-/

namespace TreeDelta

namespace Correspondence

/-- Counterparts belong to the left tree, and no two nodes of the right tree share one. -/
structure OneToOne (left right : Place Node) (mapping : Correspondence) : Prop where
  member : ∀ place ∈ right.preorder, ∀ counterpart, mapping.left? place = some counterpart →
    counterpart ∈ left.preorder
  injective : ∀ first ∈ right.preorder, ∀ second ∈ right.preorder, ∀ counterpart,
    mapping.left? first = some counterpart → mapping.left? second = some counterpart →
      first = second

/-- A node without a counterpart has the address that another node has from its counterpart. -/
def Ambiguous (right : Place Node) (mapping : Correspondence) : Prop :=
  ∃ place ∈ right.preorder, ∃ other ∈ right.preorder, ∃ counterpart,
    mapping.left? place = none ∧ mapping.left? other = some counterpart ∧
      Address.through mapping place = Address.ofPlace counterpart

/-- The places at a pair of positions within two trees belong to the trees. -/
theorem places_at_listed (left right : Place Node) {pair : Nat × Nat}
    (within : Within left.tree right.tree pair) :
    (placesAt left right pair).1 ∈ left.preorder ∧
      (placesAt left right pair).2 ∈ right.preorder := by
  have listed (place : Place Node) (position : Nat) (inside : position < place.tree.size) :
      place.postorder[position]! ∈ place.preorder := by
    have length := place.postorder_length
    rw [getElem!_pos place.postorder position (by omega)]
    exact place.preorder_perm.mem_iff.mpr (List.getElem_mem _)
  exact ⟨listed left pair.1 within.1, listed right pair.2 within.2⟩

/-- Pairs of positions that lie within two trees and ascend on both sides pair their nodes one to
one. -/
theorem ascending_one_to_one {left right : SyntaxTree} {pairs : List (Nat × Nat)}
    (within : ∀ pair ∈ pairs, Within left right pair)
    (ascending : pairs.Pairwise fun early late => early.1 < late.1 ∧ early.2 < late.2) :
    OneToOne (Place.top left) (Place.top right)
      (Pairing.ofList (pairs.map (placesAt (Place.top left) (Place.top right)))) := by
  have apart : Pairing.Apart (pairs.map (placesAt (Place.top left) (Place.top right))) :=
    ascending_apart within ascending
  -- A counterpart that is found stands in a pair with the place itself.
  have paired (place : Place Node) (listed : place ∈ (Place.top right).preorder)
      (counterpart : Place Node) (found : (Pairing.ofList (pairs.map
        (placesAt (Place.top left) (Place.top right)))).left? place = some counterpart) :
      counterpart ∈ (Place.top left).preorder ∧
        (counterpart, place) ∈ pairs.map (placesAt (Place.top left) (Place.top right)) := by
    obtain ⟨⟨_, other⟩, member, rfl, same⟩ := apart.left_found found
    obtain ⟨pair, pairMember, placed⟩ := List.mem_map.mp member
    obtain ⟨leftListed, rightListed⟩ :=
      places_at_listed (Place.top left) (Place.top right) (within pair pairMember)
    rw [placed] at leftListed rightListed
    obtain rfl : place = other := Place.Reaches.eq_of_path ((Place.mem_preorder_iff _ _).mp listed)
      ((Place.mem_preorder_iff _ _).mp rightListed) ((Place.equal_iff _ _).mp same)
    exact ⟨leftListed, member⟩
  constructor
  · intro place listed counterpart found
    exact (paired place listed counterpart found).1
  · intro first firstListed second secondListed counterpart firstFound secondFound
    exact (Prod.mk.inj (apart.eq_of_left (paired first firstListed counterpart firstFound).2
      (paired second secondListed counterpart secondFound).2 BEq.rfl)).2

/-- If every node of the left tree has an id, no address from a counterpart is one by position. -/
theorem unambiguous_of_named {left right : Place Node} {mapping : Correspondence}
    (oneToOne : OneToOne left right mapping)
    (named : ∀ place ∈ left.preorder, place.label.id?.isSome) : ¬ Ambiguous right mapping := by
  rintro ⟨⟨tree, above⟩, -, other, otherListed, counterpart, alone, found, same⟩
  obtain ⟨id, carried⟩ := Option.isSome_iff_exists.mp
    (named counterpart (oneToOne.member other otherListed counterpart found))
  rw [Address.of_place_named carried] at same
  cases above with
  | nil =>
    rw [Address.through_top alone] at same
    cases same
  | cons up further =>
    rw [Address.through_below alone] at same
    cases same

/-- Where no address is ambiguous and the left tree repeats no id, a node with a counterpart has its
address alone. -/
theorem OneToOne.paired_alone {left right : SyntaxTree} {mapping : Correspondence}
    (oneToOne : OneToOne (Place.top left) (Place.top right) mapping)
    (distinct : left.DistinctIds) (clear : ¬ Ambiguous (Place.top right) mapping)
    {first second counterpart : Place Node} (firstListed : first ∈ (Place.top right).preorder)
    (secondListed : second ∈ (Place.top right).preorder)
    (found : mapping.left? first = some counterpart)
    (same : Address.through mapping first = Address.through mapping second) : first = second := by
  rw [Address.through_paired found] at same
  cases secondFound : mapping.left? second with
  | none =>
    exact absurd
      ⟨second, secondListed, first, firstListed, counterpart, secondFound, found, same.symm⟩ clear
  | some other =>
    rw [Address.through_paired secondFound] at same
    have listed := oneToOne.member first firstListed counterpart found
    have otherListed := oneToOne.member second secondListed other secondFound
    have resolved := (Address.of_place_leads counterpart).resolve distinct listed
    rw [same, (Address.of_place_leads other).resolve distinct otherListed] at resolved
    obtain rfl := Option.some.inj resolved
    exact oneToOne.injective first firstListed second secondListed other found secondFound

/-- Where no address is ambiguous and the left tree repeats no id, the addresses through the
counterparts tell the nodes of the right tree apart.

A node with a counterpart has the address of a node of the left tree, which no other node has. Two
nodes without counterparts have the same index below nodes of the same address, so the induction on
the steps above one of them gives the same parent, and with it the same node. -/
theorem OneToOne.through_injective {left right : SyntaxTree} {mapping : Correspondence}
    (oneToOne : OneToOne (Place.top left) (Place.top right) mapping)
    (distinct : left.DistinctIds) (clear : ¬ Ambiguous (Place.top right) mapping)
    (first : Place Node) (firstListed : first ∈ (Place.top right).preorder) (second : Place Node)
    (secondListed : second ∈ (Place.top right).preorder)
    (same : Address.through mapping first = Address.through mapping second) : first = second := by
  -- Only two nodes without counterparts are left to be told apart.
  have either {first second : Place Node} (firstListed : first ∈ (Place.top right).preorder)
      (secondListed : second ∈ (Place.top right).preorder)
      (same : Address.through mapping first = Address.through mapping second)
      (alone : mapping.left? first = none → mapping.left? second = none → first = second) :
      first = second := by
    cases found : mapping.left? first with
    | some counterpart =>
      exact oneToOne.paired_alone distinct clear firstListed secondListed found same
    | none =>
      cases secondFound : mapping.left? second with
      | some counterpart =>
        exact (oneToOne.paired_alone distinct clear secondListed firstListed secondFound
          same.symm).symm
      | none => exact alone found secondFound
  obtain ⟨tree, above⟩ := first
  induction above generalizing tree second with
  | nil =>
    refine either firstListed secondListed same fun found secondFound => ?_
    obtain ⟨other, otherAbove⟩ := second
    cases otherAbove with
    | nil =>
      exact Place.Reaches.eq_of_path ((Place.mem_preorder_iff _ _).mp firstListed)
        ((Place.mem_preorder_iff _ _).mp secondListed) rfl
    | cons otherUp otherFurther =>
      rw [Address.through_top found, Address.through_below secondFound] at same
      cases same
  | cons up further inductionHypothesis =>
    refine either firstListed secondListed same fun found secondFound => ?_
    obtain ⟨other, otherAbove⟩ := second
    cases otherAbove with
    | nil =>
      rw [Address.through_below found, Address.through_top secondFound] at same
      cases same
    | cons otherUp otherFurther =>
      rw [Address.through_below found, Address.through_below secondFound] at same
      obtain ⟨sameIndex, -, -, sameParent⟩ := Address.child.inj same
      obtain ⟨parentListed, branch⟩ := Place.parent_listed firstListed
      obtain ⟨otherParentListed, otherBranch⟩ := Place.parent_listed secondListed
      exact Place.same_child (inductionHypothesis _ otherParentListed up.tree parentListed
        sameParent) sameIndex branch otherBranch

end Correspondence

namespace Extraction

/-- The number of entries of a list of addresses that repeat another one. -/
def repeats (addresses : List Address) : Nat := addresses.length - addresses.dedup.length

/-- Without repeated addresses nothing is repeated. -/
theorem repeats_nodup {addresses : List Address} (unique : addresses.Nodup) :
    repeats addresses = 0 := by
  rw [repeats, unique.dedup, Nat.sub_self]

/-- A script inserts and deletes the difference of the two sizes, but for the slots that are dropped
because they repeat an address. -/
theorem script_accounts (left right : SyntaxTree) (mapping : Correspondence) :
    let script := withCorrespondence (Place.top left) (Place.top right) mapping
    ((script.countP fun edit => edit.tag = 'I' : Nat) : Int) -
        (script.countP fun edit => edit.tag = 'D' : Nat) =
      ((right.size : Int) - repeats (rightAddresses mapping (Place.top right))) -
        ((left.size : Int) - repeats (leftAddresses (Place.top left))) := by
  intro script
  have surplus := script_surplus (Place.top left) (Place.top right) mapping
  have leftCount := Slot.left_positional.count left
  have rightCount := (Slot.right_positional mapping).count right
  have leftLength : (leftAddresses (Place.top left)).length + 1 = left.size := by
    simpa [leftAddresses] using leftCount
  have rightLength : (rightAddresses mapping (Place.top right)).length + 1 = right.size := by
    simpa [rightAddresses] using rightCount
  have leftFewer := (List.dedup_sublist (leftAddresses (Place.top left))).length_le
  have rightFewer := (List.dedup_sublist (rightAddresses mapping (Place.top right))).length_le
  simp only [repeats, script]
  omega

/-- The script of an alignment accounts for all nodes of the two trees but those whose slots repeat
the address of another one. None does, and so no node is lost, if the left tree repeats no id and no
node without a counterpart has the address that another one has from its counterpart. The latter is
so, in particular, if every node of the left tree has an id.

Each slot of a script has an address that no other slot of its side has, so what is missing are the
repeated addresses. In the left tree none repeats without repeated ids; in the right one none does
where no address is ambiguous. -/
theorem aligned_accounts_for_nodes (cost : CostModel Rat) (left right : SyntaxTree) :
    ∃ mapping script,
      Correspondence.byPostorder (Place.top left) (Place.top right)
        (Alignment.correspondence cost left right) = .ok mapping ∧
      aligned (Alignment.correspondence cost) (Place.top left) (Place.top right) = .ok script ∧
      ((script.countP fun edit => edit.tag = 'I' : Nat) : Int) -
          (script.countP fun edit => edit.tag = 'D' : Nat) =
        ((right.size : Int) - repeats (rightAddresses mapping (Place.top right))) -
          ((left.size : Int) - repeats (leftAddresses (Place.top left))) ∧
      (left.DistinctIds → ¬ Correspondence.Ambiguous (Place.top right) mapping →
        ((script.countP fun edit => edit.tag = 'I' : Nat) : Int) -
            (script.countP fun edit => edit.tag = 'D' : Nat) =
          (right.size : Int) - left.size) ∧
      ((∀ node ∈ left.preorder, node.id?.isSome) →
        ¬ Correspondence.Ambiguous (Place.top right) mapping) := by
  have ordered := Alignment.correspondence_ordered cost left right
  have accepted := (@Correspondence.by_postorder_ascending (Place.top left) (Place.top right) _
    ordered.within ordered.ascending).1
  have oneToOne := Correspondence.ascending_one_to_one ordered.within ordered.ascending
  generalize Pairing.ofList ((Alignment.correspondence cost left right).map
    (Correspondence.placesAt (Place.top left) (Place.top right))) = mapping at accepted oneToOne
  have accounts := script_accounts left right mapping
  refine ⟨mapping, _, accepted, ?_, accounts, fun distinct clear => ?_, fun named => ?_⟩
  · rw [aligned]
    exact congrArg (Except.map _) accepted
  · have leftUnique := (Slot.left_positional.tells_apart distinct fun place _ =>
      Address.of_place_leads place).addresses_nodup
    have rightUnique := ((Slot.right_positional mapping).tells_apart_below
      (oneToOne.through_injective distinct clear)).addresses_nodup
    have leftRepeats : repeats (leftAddresses (Place.top left)) = 0 := repeats_nodup leftUnique
    have rightRepeats : repeats (rightAddresses mapping (Place.top right)) = 0 :=
      repeats_nodup rightUnique
    rw [accounts, leftRepeats, rightRepeats]
    omega
  · exact Correspondence.unambiguous_of_named oneToOne fun place listed =>
      named _ ((Place.mem_labels_iff _ _).mpr ⟨place, listed, rfl⟩)

/-- Where a list with an item, both with ids, becomes a list of two items with a word each, three
nodes more are inserted than deleted. -/
theorem named_item_split :
    let left : SyntaxTree := .node { Node.bare "list" with id? := some "l" }
      [("0", .leaf { Node.bare "item" with id? := some "i" })]
    let right : SyntaxTree := .node (Node.bare "list")
      [("0", .node (Node.bare "item") [("0", .leaf (Node.bare "word"))]),
        ("1", .node (Node.bare "item") [("0", .leaf (Node.bare "word"))])]
    ∃ script, aligned (Alignment.correspondence (CostModel.unit : CostModel Rat)) (Place.top left)
        (Place.top right) = .ok script ∧
      ((script.countP fun edit => edit.tag = 'I' : Nat) : Int) -
        (script.countP fun edit => edit.tag = 'D' : Nat) = 3 := by
  intro left right
  obtain ⟨mapping, script, -, extracted, -, kept, clear⟩ :=
    aligned_accounts_for_nodes CostModel.unit left right
  exact ⟨script, extracted, kept (by decide) (clear (by decide))⟩

/-- Without the ids the item is kept as the second one, so both items have the address of the old
one. Their words share a slot, and only two nodes are inserted although the tree grows by three. -/
theorem second_word_lost :
    let left : SyntaxTree := .node (Node.bare "list") [("0", .leaf (Node.bare "item"))]
    let right : SyntaxTree := .node (Node.bare "list")
      [("0", .node (Node.bare "item") [("0", .leaf (Node.bare "word"))]),
        ("1", .node (Node.bare "item") [("0", .leaf (Node.bare "word"))])]
    right.size = left.size + 3 ∧
    ∃ script, aligned (Alignment.correspondence (CostModel.unit : CostModel Rat)) (Place.top left)
        (Place.top right) = .ok script ∧
      script.countP (fun edit => edit.tag = 'I') = 2 ∧
      script.countP (fun edit => edit.tag = 'D') = 0 := by
  intro left right
  have kept : (Alignment.Problem.ofTrees left right (CostModel.unit : CostModel Rat)).outcome?.map
      Alignment.Outcome.kept = some [(1, 4), (0, 3)] := by decide +kernel
  have pairs : Alignment.correspondence (CostModel.unit : CostModel Rat) left right =
      [(0, 3), (1, 4)] := by
    obtain ⟨outcome, found, listed⟩ := Option.map_eq_some_iff.mp kept
    simp [Alignment.correspondence, found, listed, List.mergeSort, Alignment.pairNotAfter]
  have extracted : aligned (Alignment.correspondence (CostModel.unit : CostModel Rat))
      (Place.top left) (Place.top right) = aligned (fun _ _ => [(0, 3), (1, 4)]) (Place.top left)
        (Place.top right) := by
    rw [aligned, aligned]
    exact congrArg (fun paired => (Correspondence.byPostorder _ _ paired).map _) pairs
  rw [extracted]
  exact ⟨by decide, _, rfl, by decide +kernel, by decide +kernel⟩

end Extraction

end TreeDelta
