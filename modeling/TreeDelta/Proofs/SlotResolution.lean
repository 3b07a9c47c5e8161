import TreeDelta.Proofs.SlotBalance

/-!
# What the slots of a script lead to

The address of a slot ends with an index below the address of the parent, and with the kind and the
value of the node. The parent is found by its address in the slot's own tree, and so is the child at
the index; what remains is whether the kind and the value are those of the child. On the left they
are. On the right a node that shares its id with a node of the left tree is described by that one,
so its slot leads nowhere when its contents have changed, although the node is there.
-/

namespace TreeDelta

namespace Tree

/-- Whether a tree has a node with the id of a given node and other contents. -/
def Disagrees (tree : SyntaxTree) (node : Node) : Prop :=
  ∃ other ∈ tree.preorder,
    other.id?.isSome ∧ other.id? = node.id? ∧ other.agrees false node = false

instance (tree : SyntaxTree) (node : Node) : Decidable (tree.Disagrees node) :=
  inferInstanceAs (Decidable (∃ other ∈ tree.preorder, _))

end Tree

namespace Address

/-- An address below a parent's address leads to the child at the index if it describes the child,
and nowhere otherwise. -/
theorem resolve_below {tree : SyntaxTree} (distinct : tree.DistinctIds) {child : SyntaxTree}
    {up : Step Node} {further : List (Step Node)}
    (listed : Place.mk child (up :: further) ∈ (Place.top tree).preorder) {address : Address}
    (leads : address.Leads ⟨up.tree, further⟩) (described : Node) :
    resolve? (Place.top tree) (step described up.index address) =
      if described.agrees false child.label then some ⟨child, up :: further⟩ else none := by
  obtain ⟨aboveListed, branch⟩ := Place.parent_listed listed
  have above := leads.resolve distinct aboveListed
  simp only [Address.step, resolve?, above, Place.child_found further branch, Option.bind_eq_bind,
    Option.bind_some, Node.agrees_iff]
  rfl

end Address

namespace Slot

/-- The slot of a place of the left tree leads to the place. -/
theorem left_resolves {left : SyntaxTree} (distinct : left.DistinctIds) {place : Place Node}
    (listed : place ∈ (Place.top left).preorder) {slot : Slot}
    (slotted : ofLeft? place = some slot) :
    Address.resolve? (Place.top left) slot.address = some place := by
  obtain ⟨tree, above⟩ := place
  cases above with
  | nil => simp [ofLeft?] at slotted
  | cons up further =>
    obtain rfl := Option.some.inj slotted
    have leads := Address.of_place_leads ⟨up.tree, further⟩
    have resolved := Address.resolve_below distinct listed leads tree.label
    rwa [if_pos tree.label.agrees_self] at resolved

/-- Only the top of a tree has no slot. -/
theorem left_absent_iff (place : Place Node) : ofLeft? place = none ↔ place.above = [] := by
  obtain ⟨tree, above⟩ := place
  cases above <;> simp [ofLeft?]

/-- The slot of a place of the right tree leads to the place if the node that describes it has the
same contents, and nowhere otherwise. -/
theorem right_resolves {left right : SyntaxTree} (distinct : right.DistinctIds)
    {mapping : Correspondence}
    (byId : Correspondence.ById (Place.top left) (Place.top right) mapping)
    {place : Place Node} (listed : place ∈ (Place.top right).preorder) {slot : Slot}
    (slotted : ofRight? mapping place = some slot) :
    Address.resolve? (Place.top right) slot.address =
      if (described mapping place).agrees false place.label then some place else none := by
  obtain ⟨tree, above⟩ := place
  cases above with
  | nil => simp [ofRight?] at slotted
  | cons up further =>
    obtain rfl := Option.some.inj slotted
    have leads := Address.through_leads byId ⟨up.tree, further⟩ (Place.parent_listed listed).1
    exact Address.resolve_below distinct listed leads _

/-- Where nodes are paired by id, a node is described as it is unless the left tree disagrees with
it. -/
theorem described_agrees {left right : SyntaxTree} (leftDistinct : left.DistinctIds)
    (rightDistinct : right.DistinctIds) {place : Place Node}
    (listed : place ∈ (Place.top right).preorder) :
    (described (Pairing.ofList (Correspondence.sharedIds (Place.top left) (Place.top right)))
      place).agrees false place.label = true ↔ ¬ left.Disagrees place.label := by
  cases found : (Pairing.ofList (Correspondence.sharedIds (Place.top left)
      (Place.top right))).left? place with
  | none =>
    rw [described, found]
    refine iff_of_true place.label.agrees_self ?_
    rintro ⟨node, member, present, shared, -⟩
    obtain ⟨counterpart, counterpartListed, rfl⟩ := (Place.mem_labels_iff _ _).mp member
    obtain ⟨id, counterpartId⟩ := Option.isSome_iff_exists.mp present
    rw [Correspondence.by_id_complete leftDistinct rightDistinct listed counterpartListed
      (shared.symm.trans counterpartId) counterpartId] at found
    cases found
  | some counterpart =>
    obtain ⟨counterpartListed, id, counterpartId, placeId⟩ :=
      Correspondence.by_id_sound right leftDistinct place listed counterpart found
    simp only [described, found, counterpartId, Option.isSome_some, ↓reduceIte]
    constructor
    · rintro agree ⟨node, member, -, shared, differ⟩
      obtain ⟨other, otherListed, rfl⟩ := (Place.mem_labels_iff _ _).mp member
      obtain rfl := leftDistinct.same_place otherListed counterpartListed (shared.trans placeId)
        counterpartId
      rw [agree] at differ
      cases differ
    · intro agree
      by_contra differ
      exact agree ⟨counterpart.label,
        (Place.mem_labels_iff _ _).mpr ⟨counterpart, counterpartListed, rfl⟩,
        by simp [counterpartId], counterpartId.trans placeId.symm, by simpa using differ⟩

end Slot

/-- In a tree without repeated ids a place is found again by its address and by its slot. The
address is that of the top only for a top without id, and only the top has no slot. So different
places have different addresses and different slots. -/
theorem Address.addresses_resolve_back (tree : SyntaxTree) (distinct : tree.DistinctIds) :
    (∀ place ∈ (Place.top tree).preorder,
      (ofPlace place = .top ↔ place = Place.top tree ∧ place.label.id? = none) ∧
      resolve? (Place.top tree) (ofPlace place) = some place ∧
      (Slot.ofLeft? place = none ↔ place = Place.top tree) ∧
      ∀ slot, Slot.ofLeft? place = some slot →
        slot.place = place ∧ resolve? (Place.top tree) slot.address = some place) ∧
    (∀ first ∈ (Place.top tree).preorder, ∀ second ∈ (Place.top tree).preorder,
      ofPlace first = ofPlace second → first = second) ∧
    Slot.TellsApart Slot.ofLeft? (Place.top tree) := by
  have found (place : Place Node) (listed : place ∈ (Place.top tree).preorder) :
      resolve? (Place.top tree) (ofPlace place) = some place :=
    (of_place_leads place).resolve distinct listed
  refine ⟨fun place listed => ⟨?_, found place listed, ?_, fun slot slotted => ?_⟩,
    fun first firstListed second secondListed same => ?_, ?_⟩
  · rw [of_place_eq_top_iff, Place.at_top_iff listed]
  · rw [Slot.left_absent_iff, Place.at_top_iff listed]
  · exact ⟨Slot.left_place place slot slotted, Slot.left_resolves distinct listed slotted⟩
  · have back := found first firstListed
    rw [same, found second secondListed] at back
    exact (Option.some.inj back).symm
  · exact Slot.left_positional.tells_apart distinct fun place _ => of_place_leads place

/-- In a tree whose statements look alike, one of them with an id, the literal of the first
statement is found by its address from the top and the statement with the id by its slot. -/
theorem Address.statements_resolve_back :
    let literal : SyntaxTree := .leaf ⟨"literal", some "1", none, none, none⟩
    let second : SyntaxTree :=
      .node { Node.bare "stmt" with id? := some "S" } [("0", literal)]
    let tree : SyntaxTree :=
      .node (Node.bare "script") [("0", .node (Node.bare "stmt") [("0", literal)]), ("1", second)]
    resolve? (Place.top tree)
        (.child 0 "literal" (some "1") (.child 0 "stmt" none .top)) =
      some ⟨literal, [⟨.node (Node.bare "stmt") [("0", literal)], 0⟩, ⟨tree, 0⟩]⟩ ∧
    resolve? (Place.top tree) (.child 1 "stmt" none .top) = some ⟨second, [⟨tree, 1⟩]⟩ := by
  intro literal second tree
  obtain ⟨back, -⟩ := addresses_resolve_back tree (by decide)
  have literalListed :
      Place.mk literal [⟨.node (Node.bare "stmt") [("0", literal)], 0⟩, ⟨tree, 0⟩] ∈
        (Place.top tree).preorder :=
    (Place.mem_preorder_iff _ _).mpr (.down (.down .here rfl) rfl)
  have secondListed : Place.mk second [⟨tree, 1⟩] ∈ (Place.top tree).preorder :=
    (Place.mem_preorder_iff _ _).mpr (.down .here rfl)
  exact ⟨(back _ literalListed).2.1, ((back _ secondListed).2.2.2 _ rfl).2⟩

namespace Extraction

/-- The slots of the script of two trees that are paired by id lead to their nodes, each in its own
tree: those that the script gives up always, those that it takes up unless the left tree has a node
with the same id and other contents. The slot of such a node leads nowhere.

Every slot of the script is that of a listed place. On the left its address is the place's own. On
the right it is described by the contents of the counterpart, so it is found exactly if these are
the contents of the node itself. -/
theorem slots_resolve_unless_changed (left right : SyntaxTree) (leftDistinct : left.DistinctIds)
    (rightDistinct : right.DistinctIds) :
    ∃ script, byId (Place.top left) (Place.top right) = .ok script ∧
      (∀ slot ∈ script.filterMap Edit.removed?,
        Address.resolve? (Place.top left) slot.address = some slot.place) ∧
      ∀ slot ∈ script.filterMap Edit.added?,
        Address.resolve? (Place.top right) slot.address =
          if left.Disagrees slot.place.label then none else some slot.place := by
  have paired := Correspondence.by_id_pairs leftDistinct rightDistinct
  have shared := Correspondence.by_id_sound right leftDistinct
  have described {place : Place Node} (listed : place ∈ (Place.top right).preorder) :=
    Slot.described_agrees leftDistinct rightDistinct listed
  generalize Pairing.ofList (Correspondence.sharedIds (Place.top left) (Place.top right)) =
    mapping at paired shared described
  refine ⟨withCorrespondence (Place.top left) (Place.top right) mapping, ?_, ?_, ?_⟩
  · rw [byId, paired]
    rfl
  · intro slot member
    obtain ⟨place, listed, slotted⟩ := slot_listed
      ((script_removed (Place.top left) (Place.top right) mapping).mem_iff.mp member)
    rw [Slot.left_place place slot slotted]
    exact Slot.left_resolves leftDistinct listed slotted
  · intro slot member
    obtain ⟨place, listed, slotted⟩ := slot_listed
      ((script_added (Place.top left) (Place.top right) mapping).mem_iff.mp member)
    rw [Slot.right_place mapping place slot slotted, Slot.right_resolves rightDistinct shared listed
      slotted]
    by_cases disagrees : left.Disagrees place.label
    · rw [if_pos disagrees, if_neg (fun agree => (described listed).mp agree disagrees)]
    · rw [if_neg disagrees, if_pos ((described listed).mpr disagrees)]

/-- Where a literal and a `stop` change places, the script has a move of each. The old slots lead to
the two nodes in the left tree and the new ones lead to them in the right tree. -/
theorem moved_literal_resolves :
    let literal : SyntaxTree := .leaf ⟨"literal", some "1", some "l", none, none⟩
    let stop : SyntaxTree := .leaf { Node.bare "stop" with id? := some "t" }
    let top : Node := { Node.bare "script" with id? := some "s" }
    let left : SyntaxTree := .node top [("0", literal), ("1", stop)]
    let right : SyntaxTree := .node top [("0", stop), ("1", literal)]
    let oldLiteral : Address := .child 0 "literal" (some "1") (.named "s")
    let newLiteral : Address := .child 1 "literal" (some "1") (.named "s")
    let oldStop : Address := .child 1 "stop" none (.named "s")
    let newStop : Address := .child 0 "stop" none (.named "s")
    left.DistinctIds ∧ right.DistinctIds ∧
      byId (Place.top left) (Place.top right) =
        .ok [.move ⟨oldLiteral, ⟨literal, [⟨left, 0⟩]⟩⟩ ⟨newLiteral, ⟨literal, [⟨right, 1⟩]⟩⟩,
          .move ⟨oldStop, ⟨stop, [⟨left, 1⟩]⟩⟩ ⟨newStop, ⟨stop, [⟨right, 0⟩]⟩⟩] ∧
      Address.resolve? (Place.top left) oldLiteral = some ⟨literal, [⟨left, 0⟩]⟩ ∧
      Address.resolve? (Place.top left) oldStop = some ⟨stop, [⟨left, 1⟩]⟩ ∧
      Address.resolve? (Place.top right) newLiteral = some ⟨literal, [⟨right, 1⟩]⟩ ∧
      Address.resolve? (Place.top right) newStop = some ⟨stop, [⟨right, 0⟩]⟩ := by
  intro literal stop top left right oldLiteral newLiteral oldStop newStop
  have leftDistinct : left.DistinctIds := by decide
  have rightDistinct : right.DistinctIds := by decide
  let mapping : Correspondence := Pairing.ofList [(Place.top left, Place.top right),
    (⟨literal, [⟨left, 0⟩]⟩, ⟨literal, [⟨right, 1⟩]⟩), (⟨stop, [⟨left, 1⟩]⟩, ⟨stop, [⟨right, 0⟩]⟩)]
  have paired : Correspondence.byId (Place.top left) (Place.top right) = .ok mapping := rfl
  have leftListed : leftSlots (Place.top left) =
      [⟨oldLiteral, ⟨literal, [⟨left, 0⟩]⟩⟩, ⟨oldStop, ⟨stop, [⟨left, 1⟩]⟩⟩] := rfl
  have rightListed : rightSlots mapping (Place.top right) =
      [⟨newStop, ⟨stop, [⟨right, 0⟩]⟩⟩, ⟨newLiteral, ⟨literal, [⟨right, 1⟩]⟩⟩] := rfl
  have moves : byId (Place.top left) (Place.top right) =
      .ok [.move ⟨oldLiteral, ⟨literal, [⟨left, 0⟩]⟩⟩ ⟨newLiteral, ⟨literal, [⟨right, 1⟩]⟩⟩,
        .move ⟨oldStop, ⟨stop, [⟨left, 1⟩]⟩⟩ ⟨newStop, ⟨stop, [⟨right, 0⟩]⟩⟩] := by
    rw [byId, paired, Except.map, withCorrespondence, leftListed, rightListed]
    rfl
  obtain ⟨script, extracted, removed, added⟩ :=
    slots_resolve_unless_changed left right leftDistinct rightDistinct
  obtain rfl := Except.ok.inj (moves.symm.trans extracted)
  have literalKept : ¬ left.Disagrees literal.label := by decide
  have stopKept : ¬ left.Disagrees stop.label := by decide
  refine ⟨leftDistinct, rightDistinct, moves, ?_, ?_, ?_, ?_⟩
  · exact removed ⟨oldLiteral, ⟨literal, [⟨left, 0⟩]⟩⟩ (.head _)
  · exact removed ⟨oldStop, ⟨stop, [⟨left, 1⟩]⟩⟩ (.tail _ (.head _))
  · exact (added ⟨newLiteral, ⟨literal, [⟨right, 1⟩]⟩⟩ (.head _)).trans (if_neg literalKept)
  · exact (added ⟨newStop, ⟨stop, [⟨right, 0⟩]⟩⟩ (.tail _ (.head _))).trans (if_neg stopKept)

/-- Where the literal changes its value as well, its new slot leads nowhere. -/
theorem changed_literal_unresolved :
    ∃ script,
      byId
        (Place.top (.node { Node.bare "script" with id? := some "s" }
          [("0", .leaf ⟨"literal", some "1", some "l", none, none⟩),
            ("1", .leaf { Node.bare "stop" with id? := some "t" })]))
        (Place.top (.node { Node.bare "script" with id? := some "s" }
          [("0", .leaf { Node.bare "stop" with id? := some "t" }),
            ("1", .leaf ⟨"literal", some "2", some "l", none, none⟩)])) = .ok script ∧
      ∃ slot ∈ script.filterMap Edit.added?,
        slot.address = .child 1 "literal" (some "1") (.named "s") ∧
        slot.place.label = ⟨"literal", some "2", some "l", none, none⟩ ∧
        Address.resolve?
          (Place.top (.node { Node.bare "script" with id? := some "s" }
            [("0", .leaf { Node.bare "stop" with id? := some "t" }),
              ("1", .leaf ⟨"literal", some "2", some "l", none, none⟩)])) slot.address = none := by
  refine ⟨_, rfl, ?_⟩
  decide +kernel

end Extraction

end TreeDelta
