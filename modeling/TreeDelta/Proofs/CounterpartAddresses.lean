import TreeDelta.Proofs.AddressResolution

/-!
# Addresses through counterparts

On its way up a node of the right tree is addressed by position until a node is met that has a
counterpart, and by the id of the counterpart from there on. A node on the way whose id the left
tree does not have is passed by position, although it has an id. The address is nevertheless one of
the right tree: the counterpart lends it an id that the right tree has as well, at the node that was
met, and the steps below have been taken from the right tree. Where the node itself has a
counterpart, nothing but the id is left, and the address leads to both.
-/

namespace TreeDelta.Address

open Correspondence (PairsIds)

variable {left right : SyntaxTree} {mapping : Correspondence}

/-- Counterparts carry the ids of their nodes, so an address through a counterpart is an id that
both carry. -/
theorem through_counterpart (paired : PairsIds (Place.top left) (Place.top right) mapping)
    {place counterpart : Place Node} (listed : place ∈ (Place.top right).preorder)
    (found : mapping.left? place = some counterpart) :
    ∃ id, through mapping place = .named id ∧ counterpart ∈ (Place.top left).preorder ∧
      counterpart.label.id? = some id ∧ place.label.id? = some id := by
  obtain ⟨counterpartListed, id, counterpartId, placeId⟩ :=
    (paired place listed counterpart).mp found
  refine ⟨id, ?_, counterpartListed, counterpartId, placeId⟩
  rw [through_paired found, of_place_named counterpartId]

/-- Only a top without a counterpart is addressed as the top. -/
theorem through_eq_top_iff (paired : PairsIds (Place.top left) (Place.top right) mapping)
    {place : Place Node} (listed : place ∈ (Place.top right).preorder) :
    through mapping place = .top ↔ place = Place.top right ∧ mapping.left? place = none := by
  rw [← Place.at_top_iff listed]
  cases found : mapping.left? place with
  | some counterpart =>
    obtain ⟨id, named, -⟩ := through_counterpart paired listed found
    simp [named]
  | none =>
    obtain ⟨tree, above⟩ := place
    cases above with
    | nil => simp [through_top found]
    | cons up further => simp [through_below found, step]

/-- A counterpart is found by the address that it gives to its node. -/
theorem through_finds_counterpart (leftDistinct : left.DistinctIds)
    (paired : PairsIds (Place.top left) (Place.top right) mapping)
    {place counterpart : Place Node} (listed : place ∈ (Place.top right).preorder)
    (found : mapping.left? place = some counterpart) :
    resolve? (Place.top left) (through mapping place) = some counterpart := by
  obtain ⟨id, named, counterpartListed, counterpartId, -⟩ := through_counterpart paired listed found
  rw [named]
  exact (Leads.named counterpartId).resolve leftDistinct counterpartListed

/-- Where two trees without repeated ids are paired by id, the address of a node of the right tree
through the nodes that share its id leads to the node. It is that of the top only for a top without
a counterpart. A node with a counterpart has the counterpart's own address, and the address leads to
the counterpart in the left tree. So different nodes of the right tree have different addresses.

An address through counterparts leads to its node; `through_leads` proves it along the steps above
the node. Everything else follows from the place that it leads to. -/
theorem counterpart_addresses_resolve (left right : SyntaxTree)
    (leftDistinct : left.DistinctIds) (rightDistinct : right.DistinctIds) :
    ∃ mapping, Correspondence.byId (Place.top left) (Place.top right) = .ok mapping ∧
      (∀ place ∈ (Place.top right).preorder,
        (through mapping place = .top ↔ place = Place.top right ∧ mapping.left? place = none) ∧
        resolve? (Place.top right) (through mapping place) = some place ∧
        ∀ counterpart, mapping.left? place = some counterpart →
          counterpart ∈ (Place.top left).preorder ∧
          through mapping place = ofPlace counterpart ∧
          resolve? (Place.top left) (through mapping place) = some counterpart) ∧
      ∀ first ∈ (Place.top right).preorder, ∀ second ∈ (Place.top right).preorder,
        through mapping first = through mapping second → first = second := by
  obtain ⟨mapping, found, paired⟩ := Correspondence.by_id_exact leftDistinct rightDistinct
  have byId : Correspondence.ById (Place.top left) (Place.top right) mapping :=
    fun place listed counterpart => (paired place listed counterpart).mp
  have leads := through_leads byId
  refine ⟨mapping, found, fun place listed => ⟨through_eq_top_iff paired listed,
    (leads place listed).resolve rightDistinct listed, fun counterpart met => ?_⟩,
    fun first firstListed second secondListed =>
      Leads.tells_apart rightDistinct leads firstListed secondListed⟩
  exact ⟨(byId place listed counterpart met).1, through_paired met,
    through_finds_counterpart leftDistinct paired listed met⟩

/-- Where a loop with an id of its own has come around a block with an id, and an item around the
call in the block, the address of the item leads to the item, and that of the block to the blocks of
both trees. -/
theorem wrapped_block_resolves :
    let call : SyntaxTree := .leaf (Node.bare "call")
    let item : SyntaxTree := .node (Node.bare "item") [("0", call)]
    let old : SyntaxTree := .node { Node.bare "block" with id? := some "b" } [("0", call)]
    let new : SyntaxTree := .node { Node.bare "block" with id? := some "b" } [("0", item)]
    let loop : SyntaxTree := .node { Node.bare "loop" with id? := some "l" } [("0", new)]
    let left : SyntaxTree := .node (Node.bare "script") [("0", old)]
    let right : SyntaxTree := .node (Node.bare "script") [("0", loop)]
    left.DistinctIds ∧ right.DistinctIds ∧
    ∃ mapping, Correspondence.byId (Place.top left) (Place.top right) = .ok mapping ∧
      resolve? (Place.top right) (through mapping ⟨item, [⟨new, 0⟩, ⟨loop, 0⟩, ⟨right, 0⟩]⟩) =
        some ⟨item, [⟨new, 0⟩, ⟨loop, 0⟩, ⟨right, 0⟩]⟩ ∧
      mapping.left? ⟨new, [⟨loop, 0⟩, ⟨right, 0⟩]⟩ = some ⟨old, [⟨left, 0⟩]⟩ ∧
      resolve? (Place.top right) (through mapping ⟨new, [⟨loop, 0⟩, ⟨right, 0⟩]⟩) =
        some ⟨new, [⟨loop, 0⟩, ⟨right, 0⟩]⟩ ∧
      resolve? (Place.top left) (through mapping ⟨new, [⟨loop, 0⟩, ⟨right, 0⟩]⟩) =
        some ⟨old, [⟨left, 0⟩]⟩ := by
  intro call item old new loop left right
  have leftDistinct : left.DistinctIds := by decide
  have rightDistinct : right.DistinctIds := by decide
  obtain ⟨mapping, found, resolved, -⟩ :=
    counterpart_addresses_resolve left right leftDistinct rightDistinct
  have itemListed : Place.mk item [⟨new, 0⟩, ⟨loop, 0⟩, ⟨right, 0⟩] ∈ (Place.top right).preorder :=
    (Place.mem_preorder_iff _ _).mpr (.down (.down (.down .here rfl) rfl) rfl)
  have newListed : Place.mk new [⟨loop, 0⟩, ⟨right, 0⟩] ∈ (Place.top right).preorder :=
    (Place.mem_preorder_iff _ _).mpr (.down (.down .here rfl) rfl)
  have met : mapping.left? ⟨new, [⟨loop, 0⟩, ⟨right, 0⟩]⟩ = some ⟨old, [⟨left, 0⟩]⟩ := by
    obtain rfl := Except.ok.inj (found.symm.trans rfl)
    rfl
  obtain ⟨-, here, there⟩ := resolved _ newListed
  exact ⟨leftDistinct, rightDistinct, mapping, found, (resolved _ itemListed).2.1, met, here,
    (there _ met).2.2⟩

end TreeDelta.Address
