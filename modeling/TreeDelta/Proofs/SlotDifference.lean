import Mathlib.Data.List.Count
import Mathlib.Data.List.Perm.Basic
import TreeDelta.Extraction

/-!
# What a script says of the two trees' slots

A script is the difference of two sets of addresses, written as edits. Listing the slots of a tree
keeps one slot of every address, the first in pre-order; taking one list without the other keeps the
addresses that only one tree has; and pairing removed slots with added ones only sorts both lists,
each slot into one edit.

The main statement reads all three stages off the finished script: every address of the left tree
that the right one lacks leaves exactly once, every address of the right tree that the left one
lacks enters exactly once, nothing else leaves or enters, and each slot stands for the first place
of its address. No property of the correspondence is used. It may be anything, also one under
which different nodes of the right tree come to have the same address.
-/

namespace TreeDelta

namespace Edit

/-- The slot of the left tree that an edit gives up. -/
def removed? : Edit → Option Slot
  | insertion _ => none
  | deletion slot => some slot
  | move old _ => some old

/-- The slot of the right tree that an edit takes up. -/
def added? : Edit → Option Slot
  | insertion slot => some slot
  | deletion _ => none
  | move _ new => some new

end Edit

namespace Slot

/-- The slot of a place of the left tree holds that place. -/
theorem left_place (place : Place Node) (slot : Slot) (found : ofLeft? place = some slot) :
    slot.place = place := by
  obtain ⟨tree, above⟩ := place
  cases above with
  | nil => simp [ofLeft?] at found
  | cons up further =>
    simp only [ofLeft?, Option.some.injEq] at found
    subst found
    rfl

/-- The slot of a place of the right tree holds that place, however it is addressed. -/
theorem right_place (mapping : Correspondence) (place : Place Node) (slot : Slot)
    (found : ofRight? mapping place = some slot) : slot.place = place := by
  obtain ⟨tree, above⟩ := place
  cases above with
  | nil => simp [ofRight?] at found
  | cons up further =>
    simp only [ofRight?, Option.some.injEq] at found
    subst found
    rfl

end Slot

namespace Extraction

/-- The addresses of all slots of the left tree. -/
def leftAddresses (left : Place Node) : List Address :=
  (left.preorder.filterMap Slot.ofLeft?).map Slot.address

/-- The addresses of all slots of the right tree, in terms of the left one. -/
def rightAddresses (mapping : Correspondence) (right : Place Node) : List Address :=
  (right.preorder.filterMap (Slot.ofRight? mapping)).map Slot.address

/-- The addresses that are kept are those that occur and have not been seen before. -/
theorem first_slots_addresses (seen : List Address) (slots : List Slot) (address : Address) :
    address ∈ (firstSlots seen slots).map Slot.address ↔
      address ∈ slots.map Slot.address ∧ address ∉ seen := by
  induction slots generalizing seen with
  | nil => simp [firstSlots]
  | cons slot rest inductionHypothesis =>
    by_cases before : slot.address ∈ seen
    · simp only [firstSlots, before, ↓reduceIte, inductionHypothesis, List.map_cons,
        List.mem_cons]
      constructor
      · exact fun ⟨later, unseen⟩ => ⟨.inr later, unseen⟩
      · rintro ⟨rfl | later, unseen⟩
        · exact absurd before unseen
        · exact ⟨later, unseen⟩
    · simp only [firstSlots, before, ↓reduceIte, List.map_cons, List.mem_cons,
        inductionHypothesis]
      by_cases same : address = slot.address
      · simp [same, before]
      · simp [same]

/-- No address is kept twice. -/
theorem first_slots_nodup (seen : List Address) (slots : List Slot) :
    ((firstSlots seen slots).map Slot.address).Nodup := by
  induction slots generalizing seen with
  | nil => simp [firstSlots]
  | cons slot rest inductionHypothesis =>
    by_cases before : slot.address ∈ seen
    · simpa only [firstSlots, before, ↓reduceIte] using inductionHypothesis seen
    · simp only [firstSlots, before, ↓reduceIte, List.map_cons, List.nodup_cons]
      refine ⟨?_, inductionHypothesis _⟩
      intro later
      exact ((first_slots_addresses _ rest _).mp later).2 List.mem_cons_self

/-- The slot that is kept of an address is the first one that has it. -/
theorem first_slots_find (seen : List Address) (slots : List Slot) (slot : Slot)
    (kept : slot ∈ firstSlots seen slots) :
    slots.find? (fun other => other.address = slot.address) = some slot := by
  induction slots generalizing seen with
  | nil => simp [firstSlots] at kept
  | cons first rest inductionHypothesis =>
    have passed (known : List Address) (before : first.address ∈ known)
        (later : slot ∈ firstSlots known rest) :
        (first :: rest).find? (fun other => other.address = slot.address) = some slot := by
      have unseen : slot.address ∉ known :=
        ((first_slots_addresses known rest _).mp (List.mem_map_of_mem later)).2
      have different : first.address ≠ slot.address := fun same => unseen (same ▸ before)
      simpa [List.find?_cons, different] using inductionHypothesis known later
    by_cases before : first.address ∈ seen
    · exact passed seen before (by simpa [firstSlots, before] using kept)
    · have either : slot = first ∨ slot ∈ firstSlots (first.address :: seen) rest := by
        simpa [firstSlots, before] using kept
      rcases either with rfl | later
      · simp
      · exact passed _ List.mem_cons_self later

/-- Taking one list of slots without another keeps the addresses that only the first one has. -/
theorem without_addresses (slots others : List Slot) (address : Address) :
    address ∈ (without slots others).map Slot.address ↔
      address ∈ slots.map Slot.address ∧ address ∉ others.map Slot.address := by
  simp only [without, List.mem_map, List.mem_filter, decide_eq_true_eq]
  constructor
  · rintro ⟨slot, ⟨member, missing⟩, rfl⟩
    exact ⟨⟨slot, member, rfl⟩, missing⟩
  · rintro ⟨⟨slot, member, rfl⟩, missing⟩
    exact ⟨slot, ⟨member, missing⟩, rfl⟩

/-- Nothing is taken from slots whose addresses all occur among others. -/
theorem without_nothing {slots others : List Slot}
    (occur : ∀ address ∈ slots.map Slot.address, address ∈ others.map Slot.address) :
    without slots others = [] := by
  refine List.filter_eq_nil_iff.mpr fun slot member => ?_
  simpa using occur slot.address (List.mem_map_of_mem member)

/-- The difference of two listings has every address that only the first one has once, and no
other address. -/
theorem difference_count (slots others : List Slot) (address : Address) :
    ((without (firstSlots [] slots) (firstSlots [] others)).map Slot.address).count address =
      if address ∈ slots.map Slot.address ∧ address ∉ others.map Slot.address then 1 else 0 := by
  have unique : ((without (firstSlots [] slots) (firstSlots [] others)).map
      Slot.address).Nodup :=
    (first_slots_nodup [] slots).sublist (List.filter_sublist.map _)
  simp only [unique.count, without_addresses, first_slots_addresses, List.not_mem_nil,
    not_false_eq_true, and_true]

/-- A slot that is listed is the slot of a place of the tree. -/
theorem slot_listed {slotOf : Place Node → Option Slot} {root : Place Node}
    {others : List Slot} {slot : Slot}
    (kept : slot ∈ without (firstSlots [] (root.preorder.filterMap slotOf)) others) :
    ∃ place ∈ root.preorder, slotOf place = some slot := by
  have first := first_slots_find [] _ slot (List.mem_of_mem_filter kept)
  exact List.mem_filterMap.mp (List.mem_of_find?_eq_some first)

/-- What is found first and the rest of the list make up the list. -/
theorem found_perm (test : Slot → Bool) (slots : List Slot) (target : Slot)
    (found : slots.find? test = some target) : (target :: slots.eraseP test).Perm slots := by
  induction slots with
  | nil => simp at found
  | cons first rest inductionHypothesis =>
    by_cases passes : test first = true
    · have same : first = target := by simpa [List.find?_cons, passes] using found
      rw [List.eraseP_cons_of_pos passes, same]
    · have later : rest.find? test = some target := by
        simpa [List.find?_cons, passes] using found
      have kept : (first :: rest).eraseP test = first :: rest.eraseP test := by
        rw [List.eraseP_cons_of_neg passes]
      rw [kept]
      exact (List.Perm.swap first target _).trans ((inductionHypothesis later).cons first)

/-- A match is one of the added slots, and the others are left. -/
theorem match_perm (slot target : Slot) (added : List Slot)
    (found : match? slot added = some target) :
    (target :: unmatched slot added).Perm added := by
  cases present : slot.place.label.id? with
  | none => simp [match?, present] at found
  | some id =>
    simp only [match?, present, Option.bind_some] at found
    simpa only [unmatched, present] using found_perm (carries id) added target found

/-- Every removed slot is moved or deleted, once. -/
theorem match_moves_removed (removed added : List Slot) :
    ((matchMoves removed added).moves.map Prod.fst ++
      (matchMoves removed added).deletions).Perm removed := by
  induction removed generalizing added with
  | nil => simp [matchMoves]
  | cons slot rest inductionHypothesis =>
    cases found : match? slot added with
    | some target =>
      simpa [matchMoves, found] using inductionHypothesis (unmatched slot added)
    | none =>
      simp only [matchMoves, found]
      exact List.perm_middle.trans ((inductionHypothesis added).cons slot)

/-- Every added slot is the aim of a move or inserted, once. A move takes its aim out of the slots
that are left for the moves after it. -/
theorem match_moves_added (removed added : List Slot) :
    ((matchMoves removed added).moves.map Prod.snd ++
      (matchMoves removed added).insertions).Perm added := by
  induction removed generalizing added with
  | nil => simp [matchMoves]
  | cons slot rest inductionHypothesis =>
    cases found : match? slot added with
    | some target =>
      simp only [matchMoves, found, List.map_cons, List.cons_append]
      exact ((inductionHypothesis _).cons target).trans (match_perm slot target added found)
    | none => simpa [matchMoves, found] using inductionHypothesis added

/-- The slots that the edits of a script give up are those of its moves and deletions. -/
theorem edits_removed (script : Script) :
    script.edits.filterMap Edit.removed? =
      script.moves.map Prod.fst ++ script.deletions := by
  have deletions : (script.deletions.map Edit.deletion).filterMap Edit.removed? =
      script.deletions := by
    rw [List.filterMap_map]
    exact List.filterMap_some
  have insertions : (script.insertions.map Edit.insertion).filterMap Edit.removed? = [] := by
    simp [List.filterMap_eq_nil_iff, Edit.removed?]
  rw [Script.edits, List.filterMap_append, List.filterMap_append, deletions, insertions,
    List.append_nil, List.filterMap_map]
  exact congrArg (· ++ script.deletions) (congrFun List.filterMap_eq_map script.moves)

/-- The slots that the edits of a script take up are those of its moves and insertions. -/
theorem edits_added (script : Script) :
    script.edits.filterMap Edit.added? =
      script.moves.map Prod.snd ++ script.insertions := by
  have deletions : (script.deletions.map Edit.deletion).filterMap Edit.added? = [] := by
    simp [List.filterMap_eq_nil_iff, Edit.added?]
  have insertions : (script.insertions.map Edit.insertion).filterMap Edit.added? =
      script.insertions := by
    rw [List.filterMap_map]
    exact List.filterMap_some
  rw [Script.edits, List.filterMap_append, List.filterMap_append, deletions, insertions,
    List.append_nil, List.filterMap_map]
  exact congrArg (· ++ script.insertions) (congrFun List.filterMap_eq_map script.moves)

/-- The slots that a script gives up are the slots of the left tree that the right one lacks. -/
theorem script_removed (left right : Place Node) (mapping : Correspondence) :
    ((withCorrespondence left right mapping).filterMap Edit.removed?).Perm
      (without (leftSlots left) (rightSlots mapping right)) := by
  rw [withCorrespondence, edits_removed]
  exact match_moves_removed _ _

/-- The slots that a script takes up are the slots of the right tree that the left one lacks. -/
theorem script_added (left right : Place Node) (mapping : Correspondence) :
    ((withCorrespondence left right mapping).filterMap Edit.added?).Perm
      (without (rightSlots mapping right) (leftSlots left)) := by
  rw [withCorrespondence, edits_added]
  exact match_moves_added _ _

/-- Slots among whose addresses none is counted are no slots. -/
theorem no_slots_of_count (slots : List Slot)
    (uncounted : ∀ address, (slots.map Slot.address).count address = 0) : slots = [] := by
  cases slots with
  | nil => rfl
  | cons slot rest =>
    have absent := List.count_eq_zero.mp (uncounted slot.address)
    exact absurd List.mem_cons_self absent

/-- Every edit gives up a slot or takes one up, so a script without either is empty. -/
theorem empty_of_no_slots (edits : List Edit) (removed : edits.filterMap Edit.removed? = [])
    (added : edits.filterMap Edit.added? = []) : edits = [] := by
  rw [List.filterMap_eq_nil_iff] at removed added
  apply List.eq_nil_iff_forall_not_mem.mpr
  intro edit member
  cases edit with
  | insertion slot => simpa [Edit.added?] using added _ member
  | deletion slot => simpa [Edit.removed?] using removed _ member
  | move old new => simpa [Edit.removed?] using removed _ member

/-- If the slot of a place holds that place, the first slot of an address holds the first place
whose slot has the address. -/
theorem first_place (slotOf : Place Node → Option Slot)
    (holds : ∀ place slot, slotOf place = some slot → slot.place = place)
    (places : List (Place Node)) (slot : Slot)
    (kept : slot ∈ firstSlots [] (places.filterMap slotOf)) :
    places.find? (fun place => (slotOf place).map Slot.address = some slot.address) =
      some slot.place := by
  have first := first_slots_find [] (places.filterMap slotOf) slot kept
  rw [List.find?_filterMap, Option.bind_eq_some_iff] at first
  obtain ⟨place, found, slotted⟩ := first
  have sameTest : (fun place => decide ((slotOf place).map Slot.address = some slot.address)) =
      fun place => (slotOf place).any fun other => decide (other.address = slot.address) := by
    funext other
    cases slotOf other <;> simp
  rw [sameTest, found, holds place slot slotted]

/-- A script is exactly the difference of the addresses of two trees, for every correspondence
between them. An address that only the left tree has is given up once, an address that only the
right tree has is taken up once, no other address is given up or taken up, and every slot of the
script stands for the first place in pre-order that has its address. So the script is empty exactly
when both trees have the same addresses.

Moving puts slots together but drops and invents none, so what a script gives up and takes up are
the slots of the two differences, in some order. A difference has each of its addresses once, with
the first place that has it. -/
theorem script_is_difference (left right : Place Node) (mapping : Correspondence) :
    let script := withCorrespondence left right mapping
    let removed := script.filterMap Edit.removed?
    let added := script.filterMap Edit.added?
    let lefts := leftAddresses left
    let rights := rightAddresses mapping right
    (∀ address, (removed.map Slot.address).count address =
      if address ∈ lefts ∧ address ∉ rights then 1 else 0) ∧
    (∀ address, (added.map Slot.address).count address =
      if address ∈ rights ∧ address ∉ lefts then 1 else 0) ∧
    (∀ slot ∈ removed, left.preorder.find? (fun place =>
      (Slot.ofLeft? place).map Slot.address = some slot.address) = some slot.place) ∧
    (∀ slot ∈ added, right.preorder.find? (fun place =>
      (Slot.ofRight? mapping place).map Slot.address = some slot.address) = some slot.place) ∧
    (script = [] ↔ ∀ address, address ∈ lefts ↔ address ∈ rights) := by
  intro script removed added lefts rights
  have removedSlots := script_removed left right mapping
  have addedSlots := script_added left right mapping
  have removedCount (address : Address) : (removed.map Slot.address).count address =
      if address ∈ lefts ∧ address ∉ rights then 1 else 0 := by
    rw [(removedSlots.map Slot.address).count_eq]
    exact difference_count _ _ address
  have addedCount (address : Address) : (added.map Slot.address).count address =
      if address ∈ rights ∧ address ∉ lefts then 1 else 0 := by
    rw [(addedSlots.map Slot.address).count_eq]
    exact difference_count _ _ address
  refine ⟨removedCount, addedCount, ?_, ?_, ?_⟩
  · intro slot member
    have kept := (List.mem_filter.mp (removedSlots.mem_iff.mp member)).1
    exact first_place Slot.ofLeft? Slot.left_place left.preorder slot kept
  · intro slot member
    have kept := (List.mem_filter.mp (addedSlots.mem_iff.mp member)).1
    exact first_place (Slot.ofRight? mapping) (Slot.right_place mapping) right.preorder slot kept
  · constructor
    · intro empty address
      have noneRemoved : ¬(address ∈ lefts ∧ address ∉ rights) := by
        simpa [removed, empty] using (removedCount address).symm
      have noneAdded : ¬(address ∈ rights ∧ address ∉ lefts) := by
        simpa [added, empty] using (addedCount address).symm
      tauto
    · intro same
      have noneRemoved : removed = [] := by
        apply no_slots_of_count removed
        intro address
        exact (removedCount address).trans (if_neg fun both => both.2 ((same address).mp both.1))
      have noneAdded : added = [] := by
        apply no_slots_of_count added
        intro address
        exact (addedCount address).trans (if_neg fun both => both.2 ((same address).mpr both.1))
      exact empty_of_no_slots script noneRemoved noneAdded

/-- Where `a` gives way to `b`, the script gives up the slot of `a`, and the slot stands for the
place of `a`. -/
theorem slot_given_up :
    ∃ slot ∈ (withCorrespondence
        (Place.top (.node (Node.bare "list") [("0", .leaf (Node.bare "a"))]))
        (Place.top (.node (Node.bare "list") [("0", .leaf (Node.bare "b"))]))
        Pairing.empty).filterMap Edit.removed?,
      slot.address = .child 0 "a" none .top ∧
      (Place.top (.node (Node.bare "list") [("0", .leaf (Node.bare "a"))])).preorder.find?
        (fun place => (Slot.ofLeft? place).map Slot.address = some slot.address) =
          some slot.place := by
  obtain ⟨counted, _, first, _⟩ := script_is_difference
    (Place.top (.node (Node.bare "list") [("0", .leaf (Node.bare "a"))]))
    (Place.top (.node (Node.bare "list") [("0", .leaf (Node.bare "b"))])) Pairing.empty
  have once := counted (.child 0 "a" none .top)
  rw [if_pos (by decide)] at once
  have present : Address.child 0 "a" none .top ∈ _ :=
    List.count_pos_iff.mp (Nat.lt_of_lt_of_eq Nat.one_pos once.symm)
  obtain ⟨slot, member, here⟩ := List.mem_map.mp present
  exact ⟨slot, member, here, first slot member⟩

end Extraction

end TreeDelta
