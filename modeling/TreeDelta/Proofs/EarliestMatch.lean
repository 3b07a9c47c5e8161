import TreeDelta.Proofs.EditCounts

/-!
# Which slot a removed slot takes

Removed slots are gone through in order, and each takes an added slot out of the list that all of
them share. What a slot takes therefore depends on what the slots before it have taken, and on
nothing else: it is the first added slot with its id that none of them has used up. A list of what
every slot takes is fixed by this rule, and the script can be read off it. The slots that take
something are moved there, the others are deleted, and what nobody takes is inserted.

Nothing is asked of the ids. They may be repeated in both trees, and the correspondence may be
anything.
-/

namespace TreeDelta.Extraction

/-- The slots whose addresses have not been used up. -/
def unused (used : List Address) (added : List Slot) : List Slot :=
  added.filter fun slot => slot.address ∉ used

/-- The first added slot that has not been used up and whose node has the id of the node of
`slot`. There is none for a node without an id. -/
def earliest? (used : List Address) (added : List Slot) (slot : Slot) : Option Slot :=
  slot.place.label.id?.bind fun id =>
    added.find? fun target => target.address ∉ used && carries id target

/-- The addresses that are used up by what has been taken. -/
def usedBy (targets : List (Option Slot)) : List Address :=
  targets.filterMap fun target? => target?.map Slot.address

/-- Whether each of the removed slots takes the earliest added slot that is left for it, given what
has been used up from the start. -/
structure TakesEarliest (used : List Address) (removed added : List Slot)
    (targets : List (Option Slot)) : Prop where
  /-- There is an answer for every removed slot. -/
  length_eq : targets.length = removed.length
  /-- A removed slot takes the earliest one that the slots before it have left. -/
  earliest : ∀ position slot, removed[position]? = some slot → targets[position]? =
    some (earliest? (used ++ usedBy (targets.take position)) added slot)

/-- The script for removed slots of which it is known what each of them takes. -/
def scriptTaking (used : List Address) (removed added : List Slot)
    (targets : List (Option Slot)) : Script where
  moves := (removed.zip targets).filterMap fun (slot, target?) => target?.map (slot, ·)
  deletions := (removed.zip targets).filterMap fun (slot, target?) =>
    if target?.isNone then some slot else none
  insertions := unused (used ++ usedBy targets) added

variable {used : List Address} {removed added : List Slot} {targets : List (Option Slot)}

/-- Using up one more address takes the slots with this address from those that are left. -/
theorem unused_append (used : List Address) (address : Address) (added : List Slot) :
    unused (used ++ [address]) added =
      (unused used added).filter fun slot => slot.address ≠ address := by
  rw [unused, unused, List.filter_filter]
  refine List.filter_congr fun slot _ => ?_
  simp [and_comm]

/-- A slot is matched with the earliest one among those that are left. -/
theorem match_unused (used : List Address) (added : List Slot) (slot : Slot) :
    match? slot (unused used added) = earliest? used added slot := by
  simp only [match?, earliest?, unused, List.find?_filter, Bool.decide_and, Bool.decide_eq_true]

/-- Where no address is repeated, erasing the first slot that passes a test erases exactly the slots
with its address. -/
theorem erase_found {test : Slot → Bool} {slots : List Slot}
    (unique : (slots.map Slot.address).Nodup) {target : Slot}
    (found : slots.find? test = some target) :
    slots.eraseP test = slots.filter fun slot => slot.address ≠ target.address := by
  induction slots with
  | nil => simp at found
  | cons first rest inductionHypothesis =>
    rw [List.map_cons, List.nodup_cons] at unique
    by_cases passes : test first = true
    · obtain rfl : first = target := by simpa [List.find?_cons, passes] using found
      have others : rest.filter (fun slot => slot.address ≠ first.address) = rest := by
        refine List.filter_eq_self.mpr fun slot member => ?_
        exact decide_eq_true fun same => unique.1 (same ▸ List.mem_map_of_mem member)
      rw [List.eraseP_cons_of_pos passes, List.filter_cons_of_neg (by simp), others]
    · have later : rest.find? test = some target := by
        simpa [List.find?_cons, passes] using found
      have different : first.address ≠ target.address := fun same =>
        unique.1 (same ▸ List.mem_map_of_mem (List.mem_of_find?_eq_some later))
      rw [List.eraseP_cons_of_neg passes, List.filter_cons_of_pos (by simpa using different),
        inductionHypothesis unique.2 later]

/-- Keeping the first slot of every address keeps their order. -/
theorem first_slots_sublist (seen : List Address) (slots : List Slot) :
    (firstSlots seen slots).Sublist slots := by
  induction slots generalizing seen with
  | nil => simp [firstSlots]
  | cons slot rest inductionHypothesis =>
    by_cases before : slot.address ∈ seen
    · rw [firstSlots, if_pos before]
      exact (inductionHypothesis seen).cons slot
    · rw [firstSlots, if_neg before]
      exact (inductionHypothesis _).cons_cons slot

/-- When a slot has taken the earliest one, what is left are the slots whose addresses have not been
used up, those with the address of the taken one included. -/
theorem unmatched_unused (unique : (added.map Slot.address).Nodup) {slot target : Slot}
    (taken : earliest? used added slot = some target) :
    unmatched slot (unused used added) = unused (used ++ [target.address]) added := by
  rw [← match_unused] at taken
  obtain ⟨id, carried, found⟩ := Option.bind_eq_some_iff.mp taken
  have leftUnique : ((unused used added).map Slot.address).Nodup :=
    unique.sublist (List.filter_sublist.map _)
  simp only [unmatched, carried]
  rw [erase_found leftUnique found, unused_append]

/-- What the first slot takes is used up before what the others take. -/
theorem used_by_cons (target? : Option Slot) (targets : List (Option Slot)) :
    usedBy (target? :: targets) = usedBy [target?] ++ usedBy targets := by
  rw [← List.singleton_append, usedBy, List.filterMap_append, usedBy, usedBy]

/-- If the first of the removed slots takes the earliest one, and the others do when this one has
been used up, then all of them do. -/
theorem TakesEarliest.cons {slot : Slot} {target? : Option Slot}
    (taken : earliest? used added slot = target?)
    (takes : TakesEarliest (used ++ usedBy [target?]) removed added targets) :
    TakesEarliest used (slot :: removed) added (target? :: targets) := by
  refine ⟨by simp [takes.length_eq], ?_⟩
  rintro (_ | position) other found
  · obtain rfl : slot = other := by simpa using found
    simp [usedBy, taken]
  · rw [List.take_succ_cons, used_by_cons, ← List.append_assoc]
    exact takes.earliest position other found

/-- Going through the removed slots, each takes the earliest slot that is left for it, and what they
take makes up the script. The induction is on the removed slots; the used addresses grow by what the
first of them takes. -/
theorem match_moves_earliest (unique : (added.map Slot.address).Nodup) (removed : List Slot)
    (used : List Address) :
    ∃ targets, TakesEarliest used removed added targets ∧
      matchMoves removed (unused used added) = scriptTaking used removed added targets := by
  induction removed generalizing used with
  | nil =>
    refine ⟨[], ⟨rfl, by simp⟩, ?_⟩
    simp [matchMoves, scriptTaking, usedBy]
  | cons slot rest inductionHypothesis =>
    obtain ⟨targets, takes, script⟩ :=
      inductionHypothesis (used ++ usedBy [earliest? used added slot])
    refine ⟨_, takes.cons rfl, ?_⟩
    have matched := match_unused used added slot
    cases taken : earliest? used added slot with
    | none =>
      rw [taken] at matched script
      have nothing : used ++ usedBy [none] = used := List.append_nil used
      rw [nothing] at script
      simp only [matchMoves, matched, script, scriptTaking]
      simp [usedBy]
    | some target =>
      rw [taken] at matched script
      have one : used ++ usedBy [some target] = used ++ [target.address] := rfl
      rw [one] at script
      simp only [matchMoves, matched, unmatched_unused unique taken, script, scriptTaking]
      simp [usedBy]

/-- The rule leaves no choice: what every removed slot takes is fixed. -/
theorem TakesEarliest.unique {others : List (Option Slot)}
    (takes : TakesEarliest used removed added targets)
    (othersTake : TakesEarliest used removed added others) : targets = others := by
  have agree (position : Nat) : targets.take position = others.take position := by
    induction position with
    | zero => rfl
    | succ position inductionHypothesis =>
      have here : targets[position]? = others[position]? := by
        cases found : removed[position]? with
        | some slot =>
          rw [takes.earliest position slot found, othersTake.earliest position slot found,
            inductionHypothesis]
        | none =>
          have ended := List.getElem?_eq_none_iff.mp found
          rw [List.getElem?_eq_none (takes.length_eq ▸ ended),
            List.getElem?_eq_none (othersTake.length_eq ▸ ended)]
      rw [List.take_add_one, List.take_add_one, inductionHypothesis, here]
  have whole := agree removed.length
  rwa [← takes.length_eq, List.take_length, takes.length_eq, ← othersTake.length_eq,
    List.take_length] at whole

/-- What a slot takes has the id of the slot, and the slot has one. -/
theorem earliest_carries {slot target : Slot} (taken : earliest? used added slot = some target) :
    ∃ id, slot.place.label.id? = some id ∧ target.place.label.id? = some id := by
  obtain ⟨id, slotId, found⟩ := Option.bind_eq_some_iff.mp taken
  have passed := List.find?_some found
  rw [Bool.and_eq_true, carries, decide_eq_true_iff, decide_eq_true_iff] at passed
  exact ⟨id, slotId, passed.2⟩

/-- Where each slot takes the earliest one, the two slots of a move have the same id. -/
theorem TakesEarliest.move_ids (takes : TakesEarliest used removed added targets)
    {old new : Slot} (moved : (old, new) ∈ (scriptTaking used removed added targets).moves) :
    ∃ id, old.place.label.id? = some id ∧ new.place.label.id? = some id := by
  obtain ⟨⟨slot, target?⟩, paired, same⟩ := List.mem_filterMap.mp moved
  obtain ⟨target, rfl, both⟩ := Option.map_eq_some_iff.mp same
  obtain ⟨rfl, rfl⟩ := Prod.mk.inj both
  obtain ⟨position, inside, here⟩ := List.mem_iff_getElem.mp paired
  rw [List.getElem_zip] at here
  obtain ⟨atSlot, atTarget⟩ := Prod.mk.inj here
  rw [List.length_zip] at inside
  have rule := takes.earliest position slot (List.getElem?_eq_some_iff.mpr ⟨by omega, atSlot⟩)
  rw [List.getElem?_eq_some_iff.mpr ⟨by omega, atTarget⟩] at rule
  exact earliest_carries (Option.some.inj rule).symm

/-- Slots that others lack stand in the order of their places. -/
theorem difference_places {slotOf : Place Node → Option Slot}
    (holds : ∀ place slot, slotOf place = some slot → slot.place = place)
    (places : List (Place Node)) (others : List Slot) :
    ((without (firstSlots [] (places.filterMap slotOf)) others).map Slot.place).Sublist places := by
  have ofPlaces : ((places.filterMap slotOf).map Slot.place).Sublist places := by
    induction places with
    | nil => simp
    | cons place rest inductionHypothesis =>
      cases found : slotOf place with
      | none =>
        rw [List.filterMap_cons_none found]
        exact inductionHypothesis.cons place
      | some slot =>
        rw [List.filterMap_cons_some found, List.map_cons, holds place slot found]
        exact inductionHypothesis.cons_cons place
  have kept : (without (firstSlots [] (places.filterMap slotOf)) others).Sublist
      (places.filterMap slotOf) :=
    List.filter_sublist.trans (first_slots_sublist [] _)
  exact (kept.map Slot.place).trans ofPlaces

/-- A script is what comes of going through the removed slots in the pre-order of the left tree,
where each one with an id takes the earliest added slot, in the pre-order of the right tree, that
has the same id and that none before it has taken. The trees and the correspondence are arbitrary,
and ids may be repeated.

So the two slots of a move have the same id, the nodes that are deleted have no id in common with
those that are inserted, and every slot is used up by one edit. -/
theorem moves_take_earliest (left right : Place Node) (mapping : Correspondence) :
    let script := withCorrespondence left right mapping
    let removed := without (leftSlots left) (rightSlots mapping right)
    let added := without (rightSlots mapping right) (leftSlots left)
    (∀ old new, Edit.move old new ∈ script →
      ∃ id, old.place.label.id? = some id ∧ new.place.label.id? = some id) ∧
    (∀ deleted inserted, Edit.deletion deleted ∈ script → Edit.insertion inserted ∈ script →
      ∀ id, deleted.place.label.id? = some id → inserted.place.label.id? ≠ some id) ∧
    ((script.filterMap Edit.removed?).Perm removed ∧ (removed.map Slot.address).Nodup) ∧
    ((script.filterMap Edit.added?).Perm added ∧ (added.map Slot.address).Nodup) ∧
    (removed.map Slot.place).Sublist left.preorder ∧
    (added.map Slot.place).Sublist right.preorder ∧
    ∃ targets, TakesEarliest [] removed added targets ∧
      script = (scriptTaking [] removed added targets).edits := by
  intro script removed added
  have removedUnique : (removed.map Slot.address).Nodup :=
    (first_slots_nodup [] _).sublist (List.filter_sublist.map _)
  have addedUnique : (added.map Slot.address).Nodup :=
    (first_slots_nodup [] _).sublist (List.filter_sublist.map _)
  obtain ⟨targets, takes, matched⟩ := match_moves_earliest addedUnique removed []
  have everyAdded : unused [] added = added := by simp [unused]
  have edits : script = (scriptTaking [] removed added targets).edits := by
    rw [← matched, everyAdded]
    rfl
  refine ⟨?_, ?_, ⟨script_removed left right mapping, removedUnique⟩,
    ⟨script_added left right mapping, addedUnique⟩,
    difference_places Slot.left_place _ _, difference_places (Slot.right_place mapping) _ _,
    targets, takes, edits⟩
  · intro old new moved
    rw [edits] at moved
    exact takes.move_ids (by simpa [Script.edits] using moved)
  · intro deleted inserted deletes inserts id deletedId insertedId
    -- Of the slots with the id, those that are left over are all on the side that has more of them.
    obtain ⟨-, deletions, insertions⟩ := script_counts left right mapping id
    have someDeleted : 0 < List.countP (Edit.concerns 'D' id)
        (withCorrespondence left right mapping) :=
      List.countP_pos_iff.mpr ⟨_, deletes, by
        simp [Edit.concerns, Edit.tag, Edit.slots, carries, deletedId]⟩
    have someInserted : 0 < List.countP (Edit.concerns 'I' id)
        (withCorrespondence left right mapping) :=
      List.countP_pos_iff.mpr ⟨_, inserts, by
        simp [Edit.concerns, Edit.tag, Edit.slots, carries, insertedId]⟩
    omega

/-- Where two nodes with the id `x` give way to a third one, the first of the two is moved to it and
the second is deleted. -/
example :
    (withCorrespondence
      (Place.top (.node (Node.bare "list")
        [("0", .leaf { Node.bare "a" with id? := some "x" }),
          ("1", .leaf { Node.bare "b" with id? := some "x" })]))
      (Place.top (.node (Node.bare "list")
        [("0", .leaf { Node.bare "c" with id? := some "x" })]))
      Pairing.empty).map (fun edit => (edit.tag, edit.slots.map Slot.address)) =
        [('M', [.child 0 "a" none .top, .child 0 "c" none .top]),
          ('D', [.child 1 "b" none .top])] := by
  decide +kernel

end TreeDelta.Extraction
