import TreeDelta.Proofs.SlotBalance

/-!
# What a script says of one node

A removed slot takes the first added slot whose node carries the same id, so of the slots of one id
as many are moved as both lists have, and the others of the longer list are deleted or inserted.
Where slots tell the places of a tree apart and ids its nodes, a node has one slot at most among
those that the other tree lacks, and it has one exactly if the other tree lacks its address.
-/

namespace TreeDelta

namespace Edit

/-- Whether an edit is of the kind with the letter and all of its slots hold nodes with the id. -/
def concerns (tag : Char) (id : String) (edit : Edit) : Bool :=
  edit.tag = tag && edit.slots.all (Extraction.carries id)

end Edit

namespace Extraction

/-- A slot and its match carry the same id. -/
theorem match_carries (slot target : Slot) (added : List Slot)
    (found : match? slot added = some target) (id : String) :
    carries id target = carries id slot := by
  obtain ⟨shared, slotId, first⟩ := Option.bind_eq_some_iff.mp found
  have targetId : target.place.label.id? = some shared := by
    simpa [carries] using List.find?_some first
  rw [carries, carries, slotId, targetId]

/-- The two slots of a move carry the same id. -/
theorem move_carries (removed added : List Slot) (move : Slot × Slot)
    (moved : move ∈ (matchMoves removed added).moves) (id : String) :
    carries id move.2 = carries id move.1 := by
  induction removed generalizing added with
  | nil => simp [matchMoves] at moved
  | cons slot rest inductionHypothesis =>
    cases found : match? slot added with
    | none => exact inductionHypothesis added (by simpa [matchMoves, found] using moved)
    | some target =>
      obtain rfl | later : move = (slot, target) ∨
          move ∈ (matchMoves rest (unmatched slot added)).moves := by
        simpa [matchMoves, found] using moved
      · exact match_carries slot target added found id
      · exact inductionHypothesis _ later

/-- Of the slots of one id as many are moved as both lists have. -/
theorem moves_count (removed added : List Slot) (id : String) :
    (matchMoves removed added).moves.countP (fun move => carries id move.1) =
      min (removed.countP (carries id)) (added.countP (carries id)) := by
  induction removed generalizing added with
  | nil => simp [matchMoves]
  | cons slot rest inductionHypothesis =>
    cases found : match? slot added with
    | some target =>
      have parts := (match_perm slot target added found).countP_eq (carries id)
      have shared := match_carries slot target added found id
      simp only [matchMoves, found, List.countP_cons, inductionHypothesis, ← parts, shared]
      split <;> omega
    | none =>
      simp only [matchMoves, found, inductionHypothesis, List.countP_cons]
      split
      · -- The slot has the id and no match, so no added slot has the id.
        next carried =>
        have slotId : slot.place.label.id? = some id := by simpa [carries] using carried
        have unmatched : added.find? (carries id) = none := by
          simpa [match?, slotId] using found
        have absent : added.countP (carries id) = 0 :=
          List.countP_eq_zero.mpr (List.find?_eq_none.mp unmatched)
        omega
      · rfl

/-- Of the slots of one id that a script gives up or takes up, as many are moved as are given up
and taken up, and the others are deleted or inserted. -/
theorem script_counts (left right : Place Node) (mapping : Correspondence) (id : String) :
    let script := withCorrespondence left right mapping
    let removed := (without (leftSlots left) (rightSlots mapping right)).countP (carries id)
    let added := (without (rightSlots mapping right) (leftSlots left)).countP (carries id)
    script.countP (Edit.concerns 'M' id) = min removed added ∧
      script.countP (Edit.concerns 'D' id) = removed - added ∧
      script.countP (Edit.concerns 'I' id) = added - removed := by
  intro script removed added
  let parts := matchMoves (without (leftSlots left) (rightSlots mapping right))
    (without (rightSlots mapping right) (leftSlots left))
  have moved : parts.moves.countP (fun move => carries id move.1) = min removed added :=
    moves_count _ _ id
  have same : parts.moves.countP (fun move => carries id move.2) =
      parts.moves.countP (fun move => carries id move.1) :=
    List.countP_congr fun move member => by rw [move_carries _ _ move member id]
  have both : parts.moves.countP (fun move => carries id move.1 && carries id move.2) =
      parts.moves.countP (fun move => carries id move.1) :=
    List.countP_congr fun move member => by rw [move_carries _ _ move member id, Bool.and_self]
  have givenUp : (parts.moves.map Prod.fst ++ parts.deletions).countP (carries id) = removed :=
    (match_moves_removed _ _).countP_eq (carries id)
  have takenUp : (parts.moves.map Prod.snd ++ parts.insertions).countP (carries id) = added :=
    (match_moves_added _ _).countP_eq (carries id)
  simp only [List.countP_append, List.countP_map, Function.comp_def] at givenUp takenUp
  have letters : script.countP (Edit.concerns 'M' id) =
        parts.moves.countP (fun move => carries id move.1 && carries id move.2) ∧
      script.countP (Edit.concerns 'D' id) = parts.deletions.countP (carries id) ∧
      script.countP (Edit.concerns 'I' id) = parts.insertions.countP (carries id) := by
    simp [script, withCorrespondence, Script.edits, List.countP_map, Function.comp_def,
      Edit.concerns, Edit.tag, Edit.slots, parts]
  rw [letters.1, letters.2.1, letters.2.2]
  omega

variable {slotOf : Place Node → Option Slot} {root : Place Node}

/-- Among the slots that others lack, the node with an id has one if the others lack the address of
its slot, and none otherwise. -/
theorem difference_carries
    (holds : ∀ place slot, slotOf place = some slot → slot.place = place)
    (apart : Slot.TellsApart slotOf root) {place : Place Node} {slot : Slot} {id : String}
    (listed : place ∈ root.preorder) (slotted : slotOf place = some slot)
    (alone : ∀ other ∈ root.preorder, other.label.id? = some id ↔ other = place)
    (others : List Slot) :
    (without (firstSlots [] (root.preorder.filterMap slotOf)) (firstSlots [] others)).countP
        (carries id) =
      if slot.address ∈ others.map Slot.address then 0 else 1 := by
  have counted := difference_count (root.preorder.filterMap slotOf) others slot.address
  have member : slot.address ∈ (root.preorder.filterMap slotOf).map Slot.address :=
    List.mem_map_of_mem (List.mem_filterMap.mpr ⟨place, listed, slotted⟩)
  have same : (without (firstSlots [] (root.preorder.filterMap slotOf))
      (firstSlots [] others)).countP (carries id) =
        ((without (firstSlots [] (root.preorder.filterMap slotOf))
          (firstSlots [] others)).map Slot.address).count slot.address := by
    rw [List.count, List.countP_map]
    refine List.countP_congr fun kept keptMember => ?_
    obtain ⟨other, otherListed, otherSlotted⟩ := slot_listed keptMember
    have keptPlace := holds other kept otherSlotted
    rw [carries, keptPlace, decide_eq_true_iff, alone other otherListed, Function.comp_apply,
      beq_iff_eq]
    constructor
    · rintro rfl
      rw [Option.some.inj (otherSlotted.symm.trans slotted)]
    · intro sameAddress
      exact apart _ otherListed _ listed (by simp [otherSlotted, slotted, sameAddress])
  rw [same, counted]
  by_cases present : slot.address ∈ others.map Slot.address
  · rw [if_pos present, if_neg fun both => both.2 present]
  · rw [if_neg present, if_pos ⟨member, present⟩]

end Extraction

end TreeDelta
