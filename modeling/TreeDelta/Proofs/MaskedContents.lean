import TreeDelta.Proofs.OwnSlots
import TreeDelta.Proofs.Tree.Corresponding

/-!
# Contents that a script does not depend on

A node of the right tree that shares its id with a node of the left tree is addressed and described
by that one, and the top of a tree is not described at all. So a script of two trees paired by id
does not depend on the kind and the value of such nodes of the right tree, nor does it depend on
keys and ends anywhere. What is left that a right tree can say is its shape, its ids, and the
contents of the nodes that are new.

The main statement compares the scripts of one left tree and two right trees that say the same in
this sense. Their places correspond, hence have the same counterparts, hence the same addresses; so
the slots correspond, in the same order, and every stage of the extraction goes the same way for
both.
-/

namespace TreeDelta

namespace Node

/-- Whether two nodes have the same id, or both none. -/
def sameId (node other : Node) : Bool := node.id? = other.id?

/-- Whether a node may stand for another one beside a tree with the given ids. It has the same id
and, unless that is one of the ids, the same kind and value. -/
def passesFor (ids : List String) (node other : Node) : Bool :=
  node.sameId other && (node.agrees false other || node.id?.any (· ∈ ids))

end Node

/-- Whether a tree may stand for another one beside a tree with the given ids. It has the same shape
and the same ids, and the same kinds and values but for the top and the nodes with one of the ids.
Keys and ends do not matter. -/
def Tree.passesFor (ids : List String) (tree other : SyntaxTree) : Bool :=
  tree.label.sameId other.label &&
    Tree.correspondsBranches (Node.passesFor ids) tree.branches other.branches

namespace Place

/-- Two places correspond in trees of which one may stand for the other. -/
abbrev Passes (ids : List String) : Place Node → Place Node → Prop :=
  Corresponds Node.sameId (Node.passesFor ids)

variable {ids : List String}

/-- The places of two trees of which one may stand for the other correspond, in order. -/
theorem preorder_passes {first second : SyntaxTree} (passes : first.passesFor ids second = true) :
    List.Forall₂ (Passes ids) (top first).preorder (top second).preorder := by
  rw [Tree.passesFor, Bool.and_eq_true] at passes
  exact preorder_from_corresponds (.top passes.1) passes.2

/-- Corresponding places have the same id. -/
theorem Passes.same_id {first second : Place Node} (passes : Passes ids first second) :
    first.label.id? = second.label.id? := by
  cases passes with
  | top labels => exact of_decide_eq_true labels
  | child _ _ labels =>
    rw [Node.passesFor, Bool.and_eq_true] at labels
    exact of_decide_eq_true labels.1

end Place

/-- A tree that may stand for another one has the same ids. -/
theorem Tree.ids_of_passes {ids : List String} {first second : SyntaxTree}
    (passes : first.passesFor ids second = true) : first.ids = second.ids := by
  rw [ids_of_places, ids_of_places]
  have places := Place.preorder_passes passes
  generalize (Place.top first).preorder = firstPlaces at places
  generalize (Place.top second).preorder = secondPlaces at places
  induction places with
  | nil => rfl
  | cons here _ inductionHypothesis =>
    rw [List.filterMap_cons, List.filterMap_cons, here.same_id, inductionHypothesis]

variable {left first second : SyntaxTree} {firstMapping secondMapping : Correspondence}

namespace Correspondence

/-- Nodes with the same id have the same counterpart. -/
theorem PairsIds.same_counterpart
    (firstPaired : PairsIds (Place.top left) (Place.top first) firstMapping)
    (secondPaired : PairsIds (Place.top left) (Place.top second) secondMapping)
    {place other : Place Node} (listed : place ∈ (Place.top first).preorder)
    (otherListed : other ∈ (Place.top second).preorder)
    (same : place.label.id? = other.label.id?) :
    firstMapping.left? place = secondMapping.left? other := by
  apply Option.ext
  intro counterpart
  rw [firstPaired place listed, secondPaired other otherListed, same]

/-- A node without counterpart passes only for nodes of the same kind and value. -/
theorem PairsIds.alone_agrees
    (paired : PairsIds (Place.top left) (Place.top first) firstMapping) {place : Place Node}
    (listed : place ∈ (Place.top first).preorder) (alone : firstMapping.left? place = none)
    {other : Node} (passes : place.label.passesFor left.ids other = true) :
    other.kind = place.label.kind ∧ other.value? = place.label.value? := by
  rw [Node.passesFor, Bool.and_eq_true, Bool.or_eq_true] at passes
  rcases passes.2 with agrees | shared
  · exact (Node.agrees_iff _ _).mp agrees
  · obtain ⟨id, carried, member⟩ : ∃ id, place.label.id? = some id ∧ id ∈ left.ids := by
      cases carried : place.label.id? with
      | none => simp [carried] at shared
      | some id => exact ⟨id, rfl, by simpa [carried] using shared⟩
    rw [Tree.ids_of_places] at member
    obtain ⟨counterpart, counterpartListed, counterpartId⟩ := List.mem_filterMap.mp member
    have found := (paired place listed counterpart).mpr
      ⟨counterpartListed, id, counterpartId, carried⟩
    rw [alone] at found
    cases found

end Correspondence

section Paired

variable (firstPaired : Correspondence.PairsIds (Place.top left) (Place.top first) firstMapping)
  (secondPaired : Correspondence.PairsIds (Place.top left) (Place.top second) secondMapping)

include firstPaired secondPaired

/-- Corresponding places have the same address through their counterparts. -/
theorem Address.through_passes {place other : Place Node}
    (passes : Place.Passes left.ids place other) (listed : place ∈ (Place.top first).preorder)
    (otherListed : other ∈ (Place.top second).preorder) :
    through firstMapping place = through secondMapping other := by
  induction passes with
  | @top tree otherTree labels =>
    have here : Place.Passes left.ids ⟨tree, []⟩ ⟨otherTree, []⟩ := .top labels
    have same := firstPaired.same_counterpart secondPaired listed otherListed here.same_id
    cases found : firstMapping.left? ⟨tree, []⟩ with
    | some counterpart => rw [through_paired found, through_paired (same ▸ found)]
    | none => rw [through_top found, through_top (same ▸ found)]
  | @child tree otherTree up otherUp further otherFurther above index labels inductionHypothesis =>
    have here : Place.Passes left.ids ⟨tree, up :: further⟩ ⟨otherTree, otherUp :: otherFurther⟩ :=
      .child above index labels
    have same := firstPaired.same_counterpart secondPaired listed otherListed here.same_id
    cases found : firstMapping.left? ⟨tree, up :: further⟩ with
    | some counterpart => rw [through_paired found, through_paired (same ▸ found)]
    | none =>
      have parents := inductionHypothesis (Place.parent_listed listed).1
        (Place.parent_listed otherListed).1
      obtain ⟨kind, value⟩ := firstPaired.alone_agrees listed found labels
      rw [through_below found, through_below (same ▸ found), parents, index, step, step, kind,
        value]
      rfl

/-- Corresponding places below the tops are described alike. -/
theorem Slot.described_passes {place other : Place Node}
    (passes : Place.Passes left.ids place other) (below : place.above ≠ [])
    (listed : place ∈ (Place.top first).preorder)
    (otherListed : other ∈ (Place.top second).preorder) :
    (described firstMapping place).kind = (described secondMapping other).kind ∧
      (described firstMapping place).value? = (described secondMapping other).value? := by
  have same := firstPaired.same_counterpart secondPaired listed otherListed passes.same_id
  cases found : firstMapping.left? place with
  | some counterpart =>
    obtain ⟨-, id, carried, -⟩ := (firstPaired place listed counterpart).mp found
    simp [described, found, same ▸ found, carried]
  | none =>
    have labels : place.label.passesFor left.ids other.label = true := by
      cases passes with
      | top => exact absurd rfl below
      | child _ _ labels => exact labels
    obtain ⟨kind, value⟩ := firstPaired.alone_agrees listed found labels
    simp [described, found, same ▸ found, kind, value]

end Paired

/-- Two slots say the same of corresponding nodes of two trees. -/
structure Slot.Alike (slot other : Slot) : Prop where
  address : slot.address = other.address
  path : slot.place.path = other.place.path
  id : slot.place.label.id? = other.place.label.id?

/-- Two edits of scripts that start from the same tree say the same. -/
inductive Edit.Alike : Edit → Edit → Prop where
  | insertion {slot other : Slot} (alike : slot.Alike other) :
      Alike (.insertion slot) (.insertion other)
  | deletion (slot : Slot) : Alike (.deletion slot) (.deletion slot)
  | move (old : Slot) {new other : Slot} (alike : new.Alike other) :
      Alike (.move old new) (.move old other)

/-- Corresponding places have slots that say the same, or both none. -/
theorem Slot.right_passes
    (firstPaired : Correspondence.PairsIds (Place.top left) (Place.top first) firstMapping)
    (secondPaired : Correspondence.PairsIds (Place.top left) (Place.top second) secondMapping)
    {place other : Place Node} (passes : Place.Passes left.ids place other)
    (listed : place ∈ (Place.top first).preorder)
    (otherListed : other ∈ (Place.top second).preorder) :
    Option.Rel Slot.Alike (ofRight? firstMapping place) (ofRight? secondMapping other) := by
  have path := passes.path
  have id := passes.same_id
  have described := described_passes firstPaired secondPaired passes
  cases passes with
  | top => exact .none
  | child above index labels =>
    have parents := Address.through_passes firstPaired secondPaired above
      (Place.parent_listed listed).1 (Place.parent_listed otherListed).1
    obtain ⟨kind, value⟩ := described (List.cons_ne_nil _ _) listed otherListed
    rw [Address.through, Address.through] at parents
    refine .some ⟨?_, path, id⟩
    simp only [Address.step, kind, value, index, parents]

namespace Extraction

variable {slots others : List Slot}

/-- The slots of two trees of which one may stand for the other say the same, one by one. -/
theorem right_slots_pass
    (firstPaired : Correspondence.PairsIds (Place.top left) (Place.top first) firstMapping)
    (secondPaired : Correspondence.PairsIds (Place.top left) (Place.top second) secondMapping)
    (passes : first.passesFor left.ids second = true) :
    List.Forall₂ Slot.Alike
      ((Place.top first).preorder.filterMap (Slot.ofRight? firstMapping))
      ((Place.top second).preorder.filterMap (Slot.ofRight? secondMapping)) := by
  refine List.rel_filterMap (fun place other => ?_)
    (Place.related_listed (Place.preorder_passes passes))
  rintro ⟨listed, otherListed, here⟩
  exact Slot.right_passes firstPaired secondPaired here listed otherListed

/-- Of slots that say the same, the first ones of each address say the same. -/
theorem first_slots_alike (alike : List.Forall₂ Slot.Alike slots others) (seen : List Address) :
    List.Forall₂ Slot.Alike (firstSlots seen slots) (firstSlots seen others) := by
  induction alike generalizing seen with
  | nil => exact .nil
  | @cons slot other rest otherRest here _ inductionHypothesis =>
    rw [firstSlots, firstSlots, here.address]
    by_cases before : other.address ∈ seen
    · rw [if_pos before, if_pos before]
      exact inductionHypothesis seen
    · rw [if_neg before, if_neg before]
      exact .cons here (inductionHypothesis _)

/-- Slots that say the same have the same addresses. -/
theorem addresses_of_alike (alike : List.Forall₂ Slot.Alike slots others) :
    slots.map Slot.address = others.map Slot.address := by
  induction alike with
  | nil => rfl
  | cons here _ inductionHypothesis =>
    rw [List.map_cons, List.map_cons, here.address, inductionHypothesis]

/-- Of slots that say the same, those that a third list lacks say the same. -/
theorem without_alike (alike : List.Forall₂ Slot.Alike slots others) (lacking : List Slot) :
    List.Forall₂ Slot.Alike (without slots lacking) (without others lacking) := by
  refine List.rel_filter (fun slot other here => ?_) alike
  simp only [here.address]

/-- Slots that say the same belong to nodes with the same id. -/
theorem carries_alike {slot other : Slot} (alike : slot.Alike other) (id : String) :
    carries id slot = carries id other := by
  rw [carries, carries, alike.id]

/-- Of slots that say the same, the first ones with an id say the same, and so do the others. -/
theorem first_carrying_alike (alike : List.Forall₂ Slot.Alike slots others) (id : String) :
    Option.Rel Slot.Alike (slots.find? (carries id)) (others.find? (carries id)) ∧
      List.Forall₂ Slot.Alike (slots.eraseP (carries id)) (others.eraseP (carries id)) := by
  induction alike with
  | nil => exact ⟨.none, .nil⟩
  | @cons slot other rest otherRest here later inductionHypothesis =>
    rw [List.find?_cons, List.find?_cons, List.eraseP_cons, List.eraseP_cons,
      carries_alike here id]
    cases carries id other with
    | true => exact ⟨.some here, later⟩
    | false => exact ⟨inductionHypothesis.1, .cons here inductionHypothesis.2⟩

/-- The parts of two scripts that start from the same tree say the same. -/
structure Script.Alike (script other : Script) : Prop where
  moves : List.Forall₂ (fun move otherMove => move.1 = otherMove.1 ∧ move.2.Alike otherMove.2)
    script.moves other.moves
  deletions : script.deletions = other.deletions
  insertions : List.Forall₂ Slot.Alike script.insertions other.insertions

/-- Removed slots are paired alike with added slots that say the same. -/
theorem match_moves_alike (removed : List Slot) (alike : List.Forall₂ Slot.Alike slots others) :
    (matchMoves removed slots).Alike (matchMoves removed others) := by
  induction removed generalizing slots others with
  | nil => exact ⟨.nil, rfl, alike⟩
  | cons slot rest inductionHypothesis =>
    cases carried : slot.place.label.id? with
    | none =>
      obtain ⟨moves, deletions, insertions⟩ := inductionHypothesis alike
      simp only [matchMoves, match?, carried, Option.bind_none]
      exact ⟨moves, congrArg (slot :: ·) deletions, insertions⟩
    | some id =>
      obtain ⟨found, left⟩ := first_carrying_alike alike id
      simp only [matchMoves, match?, unmatched, carried, Option.bind_some]
      generalize slots.find? (carries id) = target at found
      generalize others.find? (carries id) = otherTarget at found
      cases found with
      | some here =>
        obtain ⟨moves, deletions, insertions⟩ := inductionHypothesis left
        exact ⟨.cons ⟨rfl, here⟩ moves, deletions, insertions⟩
      | none =>
        obtain ⟨moves, deletions, insertions⟩ := inductionHypothesis alike
        exact ⟨moves, congrArg (slot :: ·) deletions, insertions⟩

/-- Scripts whose parts say the same have edits that say the same. -/
theorem Script.Alike.edits {script other : Script} (alike : script.Alike other) :
    List.Forall₂ Edit.Alike script.edits other.edits := by
  rw [Script.edits, Script.edits, alike.deletions]
  refine List.rel_append (List.rel_append ?_ ?_) ?_
  · refine List.rel_map (fun move otherMove same => ?_) alike.moves
    obtain ⟨old, new⟩ := move
    obtain ⟨rfl, here⟩ := same
    exact .move _ here
  · exact List.forall₂_same.mpr fun edit member => by
      obtain ⟨slot, _, rfl⟩ := List.mem_map.mp member
      exact .deletion slot
  · exact List.rel_map (fun _ _ here => .insertion here) alike.insertions

/-- The scripts from one tree to two trees of which one may stand for the other say the same. -/
theorem scripts_alike
    (firstPaired : Correspondence.PairsIds (Place.top left) (Place.top first) firstMapping)
    (secondPaired : Correspondence.PairsIds (Place.top left) (Place.top second) secondMapping)
    (passes : first.passesFor left.ids second = true) :
    List.Forall₂ Edit.Alike
      (withCorrespondence (Place.top left) (Place.top first) firstMapping)
      (withCorrespondence (Place.top left) (Place.top second) secondMapping) := by
  have rights : List.Forall₂ Slot.Alike (rightSlots firstMapping (Place.top first))
      (rightSlots secondMapping (Place.top second)) :=
    first_slots_alike (right_slots_pass firstPaired secondPaired passes) []
  have removed : without (leftSlots (Place.top left)) (rightSlots firstMapping (Place.top first)) =
      without (leftSlots (Place.top left)) (rightSlots secondMapping (Place.top second)) := by
    rw [without, without, addresses_of_alike rights]
  rw [withCorrespondence, withCorrespondence, removed]
  exact (match_moves_alike _ (without_alike rights _)).edits

/-- A script of two trees that are paired by id does not depend on contents of the right tree that
the left one answers for. Two right trees of the same shape with the same ids have scripts that say
the same, edit by edit, if they agree in the kinds and values of all nodes but the tops and those
whose ids the left tree has; keys and ends may differ anywhere. So a tree that differs from the left
one in nothing else has an empty script.

Both right trees have the same ids and are paired with the same nodes, so their addresses through
the counterparts are alike place by place, and so are the scripts made from these. For the last part
the first of the two is the left tree itself, whose script is empty. -/
theorem masked_contents_ignored (left : SyntaxTree) (leftDistinct : left.DistinctIds) :
    (∀ first second : SyntaxTree, first.DistinctIds → first.passesFor left.ids second = true →
      ∃ script other, byId (Place.top left) (Place.top first) = .ok script ∧
        byId (Place.top left) (Place.top second) = .ok other ∧
        List.Forall₂ Edit.Alike script other) ∧
    ∀ changed : SyntaxTree, left.passesFor left.ids changed = true →
      byId (Place.top left) (Place.top changed) = .ok [] := by
  have compared (first second : SyntaxTree) (firstDistinct : first.DistinctIds)
      (passes : first.passesFor left.ids second = true) :
      ∃ script other, byId (Place.top left) (Place.top first) = .ok script ∧
        byId (Place.top left) (Place.top second) = .ok other ∧
        List.Forall₂ Edit.Alike script other := by
    have secondDistinct : second.DistinctIds := by
      rw [Tree.DistinctIds, ← Tree.ids_of_passes passes]
      exact firstDistinct
    obtain ⟨firstMapping, firstFound, firstPaired⟩ :=
      Correspondence.by_id_exact leftDistinct firstDistinct
    obtain ⟨secondMapping, secondFound, secondPaired⟩ :=
      Correspondence.by_id_exact leftDistinct secondDistinct
    refine ⟨_, _, ?_, ?_, scripts_alike firstPaired secondPaired passes⟩
    · rw [byId, firstFound]
      rfl
    · rw [byId, secondFound]
      rfl
  refine ⟨compared, fun changed passes => ?_⟩
  obtain ⟨script, other, extracted, otherExtracted, alike⟩ :=
    compared left changed leftDistinct passes
  rw [by_id_self leftDistinct] at extracted
  obtain rfl := Except.ok.inj extracted
  cases alike
  exact otherExtracted

/-- A second argument of a call is inserted whether the call keeps its name or gets another one,
with other keys and below another top. Where the argument is not added, nothing is reported. -/
theorem renamed_call_unreported :
    let argument : SyntaxTree := .leaf ⟨"literal", some "1", none, none, none⟩
    let further : SyntaxTree := .leaf ⟨"literal", some "2", none, none, none⟩
    let left : SyntaxTree := .node (Node.bare "script")
      [("0", .node ⟨"call", some "print", some "c", none, none⟩ [("0", argument)])]
    let first : SyntaxTree := .node (Node.bare "script")
      [("0", .node ⟨"call", some "print", some "c", none, none⟩ [("0", argument), ("1", further)])]
    let second : SyntaxTree := .node ⟨"program", none, none, some ⟨1, 0⟩, none⟩
      [("body", .node ⟨"call", some "show", some "c", none, none⟩
        [("a", argument), ("b", further)])]
    let changed : SyntaxTree := .node ⟨"program", none, none, some ⟨1, 0⟩, none⟩
      [("body", .node ⟨"call", some "show", some "c", none, none⟩ [("a", argument)])]
    (∃ script other, byId (Place.top left) (Place.top first) = .ok script ∧
      byId (Place.top left) (Place.top second) = .ok other ∧ script.map Edit.tag = ['I'] ∧
      List.Forall₂ Edit.Alike script other) ∧
    byId (Place.top left) (Place.top changed) = .ok [] := by
  intro argument further left first second changed
  obtain ⟨compared, unreported⟩ := masked_contents_ignored left (by decide)
  obtain ⟨script, other, extracted, otherExtracted, alike⟩ :=
    compared first second (by decide) (by decide)
  have tags : (byId (Place.top left) (Place.top first)).toOption.map (List.map Edit.tag) =
      some ['I'] := by decide +kernel
  rw [extracted] at tags
  exact ⟨⟨script, other, extracted, otherExtracted, Option.some.inj tags, alike⟩,
    unreported changed (by decide)⟩

end Extraction

end TreeDelta
