import TreeDelta.Proofs.EarliestMatch
import TreeDelta.Proofs.PairingRelation

/-!
# The order of a script

A script is put together from sets: the addresses that have been seen, the addresses of the other
tree, the tables of the correspondence. None of them hands down an order. Slots come in the
pre-order of their tree, and whatever is done to a list of slots afterwards only leaves some of them
out. So the moves and the deletions follow the left tree and the insertions follow the right one, no
node comes twice in a group, and a script is told by its edits alone: they can be arranged in one
way only.
-/

namespace TreeDelta

namespace Place

variable {α : Type}

/-- Whether one place comes before another in the pre-order of what hangs below `root`. -/
def Precedes (root first second : Place α) : Prop :=
  ∃ early late : Nat, early < late ∧
    root.preorder[early]? = some first ∧ root.preorder[late]? = some second

/-- Of two places only one can come before the other. -/
theorem Precedes.asymm {root first second : Place α} (precedes : root.Precedes first second) :
    ¬ root.Precedes second first := by
  obtain ⟨early, late, before, firstAt, secondAt⟩ := precedes
  rintro ⟨secondEarly, firstLate, behind, secondAgain, firstAgain⟩
  have differ : root.preorder.Nodup :=
    (preorder_paths_differ root).imp fun different same => different (congrArg path same)
  have position {place : Place α} {one other : Nat} (here : root.preorder[one]? = some place)
      (there : root.preorder[other]? = some place) : one = other :=
    (List.getElem?_inj (List.getElem?_eq_some_iff.mp here).1 differ).mp (here.trans there.symm)
  have sameFirst := position firstAt firstAgain
  have sameSecond := position secondAt secondAgain
  omega

/-- Leaving places out of the pre-order leaves it in order. -/
theorem precedes_of_sublist {root : Place α} {places : List (Place α)}
    (kept : places.Sublist root.preorder) : places.Pairwise root.Precedes := by
  refine List.Pairwise.sublist kept (List.pairwise_iff_getElem.mpr ?_)
  intro early late earlyBound lateBound before
  exact ⟨early, late, before, List.getElem?_eq_getElem earlyBound,
    List.getElem?_eq_getElem lateBound⟩

end Place

namespace Pairing

variable {α β : Type} [BEq α] [BEq β] [EquivBEq α] [EquivBEq β]

/-- What a right member is paired with is fixed by the relation. -/
theorem Represents.same_left {pairing other : Pairing α β} {relation : Set (α × β)}
    (represents : Represents pairing relation) (otherRepresents : Represents other relation)
    (right : β) : other.left? right = pairing.left? right := by
  apply Option.ext
  intro left
  rw [represents.left_iff, otherRepresents.left_iff]

end Pairing

namespace Address

/-- An address depends on the counterparts only. -/
theorem through_congr {mapping other : Correspondence}
    (same : ∀ place, other.left? place = mapping.left? place) (place : Place Node) :
    through other place = through mapping place := by
  obtain ⟨tree, above⟩ := place
  induction above generalizing tree with
  | nil =>
    cases found : mapping.left? ⟨tree, []⟩ with
    | some counterpart => rw [through_paired found, through_paired ((same _).trans found)]
    | none => rw [through_top found, through_top ((same _).trans found)]
  | cons up further inductionHypothesis =>
    cases found : mapping.left? ⟨tree, up :: further⟩ with
    | some counterpart => rw [through_paired found, through_paired ((same _).trans found)]
    | none =>
      rw [through_below found, through_below ((same _).trans found), inductionHypothesis up.tree]

end Address

namespace Slot

/-- A slot depends on the counterparts only. -/
theorem right_congr {mapping other : Correspondence}
    (same : ∀ place, other.left? place = mapping.left? place) (place : Place Node) :
    ofRight? other place = ofRight? mapping place := by
  obtain ⟨tree, above⟩ := place
  cases above with
  | nil => rfl
  | cons up further =>
    have parent := Address.through_congr same ⟨up.tree, further⟩
    rw [Address.through, Address.through] at parent
    simp only [ofRight?, described, same, parent]

end Slot

namespace Edit

/-- Whether one edit belongs before another. Moves belong before deletions and these before
insertions; moves and deletions follow the left tree by their first slots, and insertions follow the
right one. -/
def Before (left right : Place Node) : Edit → Edit → Prop
  | move old _, move other _ => left.Precedes old.place other.place
  | move _ _, _ => True
  | deletion _, move _ _ => False
  | deletion slot, deletion other => left.Precedes slot.place other.place
  | deletion _, insertion _ => True
  | insertion slot, insertion other => right.Precedes slot.place other.place
  | insertion _, _ => False

/-- Of two edits only one can belong before the other. -/
theorem Before.asymm {left right : Place Node} {first second : Edit}
    (before : first.Before left right second) : ¬ second.Before left right first := by
  cases first with
  | move old new =>
    cases second with
    | move other target => exact Place.Precedes.asymm before
    | deletion other => exact id
    | insertion other => exact id
  | deletion slot =>
    cases second with
    | move other target => exact before.elim
    | deletion other => exact Place.Precedes.asymm before
    | insertion other => exact id
  | insertion slot =>
    cases second with
    | move other target => exact before.elim
    | deletion other => exact before.elim
    | insertion other => exact Place.Precedes.asymm before

end Edit

namespace Extraction

/-! ### Slots are only left out -/

/-- The slots that are moved are some of the removed ones, in their order. -/
theorem match_moves_moved (removed added : List Slot) :
    ((matchMoves removed added).moves.map Prod.fst).Sublist removed := by
  induction removed generalizing added with
  | nil => simp [matchMoves]
  | cons slot rest inductionHypothesis =>
    cases found : match? slot added with
    | some target =>
      simp only [matchMoves, found, List.map_cons]
      exact (inductionHypothesis (unmatched slot added)).cons_cons slot
    | none =>
      simp only [matchMoves, found]
      exact (inductionHypothesis added).cons slot

/-- The slots that are deleted are some of the removed ones, in their order. -/
theorem match_moves_deleted (removed added : List Slot) :
    (matchMoves removed added).deletions.Sublist removed := by
  induction removed generalizing added with
  | nil => simp [matchMoves]
  | cons slot rest inductionHypothesis =>
    cases found : match? slot added with
    | some target =>
      simp only [matchMoves, found]
      exact (inductionHypothesis (unmatched slot added)).cons slot
    | none =>
      simp only [matchMoves, found]
      exact (inductionHypothesis added).cons_cons slot

/-- The slots that are inserted are some of the added ones, in their order. A slot that is used up
goes from the middle of the list. -/
theorem match_moves_inserted (removed added : List Slot) :
    (matchMoves removed added).insertions.Sublist added := by
  induction removed generalizing added with
  | nil => simp [matchMoves]
  | cons slot rest inductionHypothesis =>
    cases found : match? slot added with
    | some target =>
      simp only [matchMoves, found]
      refine (inductionHypothesis (unmatched slot added)).trans ?_
      rw [unmatched]
      split
      · exact List.eraseP_sublist
      · exact List.Sublist.refl added
    | none =>
      simp only [matchMoves, found]
      exact inductionHypothesis added

/-- Edits are in order if the slots of each kind follow the pre-order of their tree. -/
theorem edits_before {left right : Place Node} {script : Script}
    (moves : (script.moves.map fun move => move.1.place).Pairwise left.Precedes)
    (deletions : (script.deletions.map Slot.place).Pairwise left.Precedes)
    (insertions : (script.insertions.map Slot.place).Pairwise right.Precedes) :
    script.edits.Pairwise (Edit.Before left right) := by
  rw [List.pairwise_map] at moves deletions insertions
  rw [Script.edits, List.pairwise_append, List.pairwise_append, List.pairwise_map,
    List.pairwise_map, List.pairwise_map]
  refine ⟨⟨moves, deletions, ?_⟩, insertions, ?_⟩
  · intro move moved deletion deleted
    obtain ⟨_, -, rfl⟩ := List.mem_map.mp moved
    obtain ⟨_, -, rfl⟩ := List.mem_map.mp deleted
    trivial
  · intro edit earlier insertion inserted
    obtain ⟨_, -, rfl⟩ := List.mem_map.mp inserted
    rcases List.mem_append.mp earlier with moved | deleted
    · obtain ⟨_, -, rfl⟩ := List.mem_map.mp moved
      trivial
    · obtain ⟨_, -, rfl⟩ := List.mem_map.mp deleted
      trivial

/-- Matching slots that follow the pre-orders of two trees makes edits that are in order. -/
theorem match_moves_before {left right : Place Node} {removed added : List Slot}
    (removedListed : (removed.map Slot.place).Sublist left.preorder)
    (addedListed : (added.map Slot.place).Sublist right.preorder) :
    (matchMoves removed added).edits.Pairwise (Edit.Before left right) := by
  have moved := ((match_moves_moved removed added).map Slot.place).trans removedListed
  have deleted := ((match_moves_deleted removed added).map Slot.place).trans removedListed
  have inserted := ((match_moves_inserted removed added).map Slot.place).trans addedListed
  rw [List.map_map] at moved
  exact edits_before (Place.precedes_of_sublist moved) (Place.precedes_of_sublist deleted)
    (Place.precedes_of_sublist inserted)

/-- The script depends on the counterparts only, however the correspondence holds them. -/
theorem script_congr (left right : Place Node) {mapping other : Correspondence}
    (same : ∀ place, other.left? place = mapping.left? place) :
    withCorrespondence left right other = withCorrespondence left right mapping := by
  have slots : Slot.ofRight? other = Slot.ofRight? mapping := funext (Slot.right_congr same)
  rw [withCorrespondence, withCorrespondence, rightSlots, rightSlots, slots]

/-- A script lists its moves, then its deletions, then its insertions. The nodes that are moved and
those that are deleted follow the pre-order of the left tree, those that are inserted follow that of
the right one, and none comes twice in its group. So the edits of the script can be arranged in no
other way, and it does not show in what order the tables are held that the script is made from:
neither the tables of the correspondence nor the one that its pairs have been taken from.

The groups and the pre-order within them make a strict order, in which a list can be arranged in one
way only. Of the correspondence a script asks nothing but the left partners, and these are the same
in all tables that represent the same relation. -/
theorem script_order_fixed (left right : Place Node) (mapping : Correspondence) :
    let edits := withCorrespondence left right mapping
    edits.Pairwise (Edit.Before left right) ∧
    (∀ others : List Edit, others.Perm edits → others.Pairwise (Edit.Before left right) →
      others = edits) ∧
    (∀ relation other, mapping.Represents relation → Pairing.Represents other relation →
      withCorrespondence left right other = edits) ∧
    ∀ pairs others : List (Place Node × Place Node), Pairing.Apart pairs → others.Perm pairs →
      mapping = Pairing.ofList pairs →
      withCorrespondence left right (Pairing.ofList others) = edits := by
  intro edits
  have ordered : edits.Pairwise (Edit.Before left right) := match_moves_before
    (difference_places Slot.left_place left.preorder (rightSlots mapping right))
    (difference_places (Slot.right_place mapping) right.preorder (leftSlots left))
  have held (relation : Set (Place Node × Place Node)) (other : Correspondence)
      (represents : mapping.Represents relation)
      (otherRepresents : Pairing.Represents other relation) :
      withCorrespondence left right other = edits :=
    script_congr left right (represents.same_left otherRepresents)
  refine ⟨ordered, fun others same otherOrdered => ?_, held, fun pairs others apart same put => ?_⟩
  · exact List.Perm.eq_of_pairwise (fun _ _ _ _ before behind => absurd behind before.asymm)
      otherOrdered ordered same
  · have members : {pair | pair ∈ others} = {pair | pair ∈ pairs} := by
      ext pair
      exact same.mem_iff
    refine held {pair | pair ∈ pairs} _ ?_ ?_
    · rw [put]
      exact Pairing.represents_apart apart
    · rw [← members]
      exact Pairing.represents_apart (apart.perm same)

/-- Where two items change places and a third one gives way to another, both moves come before the
deletion and this before the insertion. -/
example :
    (byId
      (Place.top (.node (Node.bare "list")
        [("0", .leaf { Node.bare "item" with id? := some "a" }),
          ("1", .leaf { Node.bare "word" with id? := some "b" }), ("2", .leaf (Node.bare "c"))]))
      (Place.top (.node (Node.bare "list")
        [("0", .leaf { Node.bare "word" with id? := some "b" }),
          ("1", .leaf { Node.bare "item" with id? := some "a" }),
          ("2", .leaf (Node.bare "d"))]))).map
      (List.map fun edit => (edit.tag, edit.slots.map fun slot => slot.place.path)) =
        .ok [('M', [[0], [1]]), ('M', [[1], [0]]), ('D', [[2]]), ('I', [[2]])] := by
  decide +kernel

end Extraction

end TreeDelta
