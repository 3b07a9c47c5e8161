import TreeDelta.Extraction
import TreeDelta.Proofs.RelatedPlaces

/-!
# Repeated ids

A tree that repeats an id cannot be paired by id. Indexing its ids stops at the first node in
pre-order that carries the id of an earlier one, and names that id; the left tree is indexed first.
If neither tree repeats an id, every id of the left tree is looked up among those of the right one.
The ids are those of different nodes on both sides, so the pairs that are found have no members in
common, none of them evicts another, and the order in which the ids are gone through does not show.
-/

namespace TreeDelta.Correspondence

/-- Two different nodes below a place carry an id. -/
def CarriedTwice (root : Place Node) (id : String) : Prop :=
  ∃ first ∈ root.preorder, ∃ second ∈ root.preorder, first ≠ second ∧
    first.label.id? = some id ∧ second.label.id? = some id

/-- The ids of a list of places, in order. Places without id are left out. -/
def idsOf (places : List (Place Node)) : List String :=
  places.filterMap fun place => place.label.id?

/-- The first of a list of places that repeats an id of an earlier one carries the id: before it no
id is repeated. -/
def FirstRepeat (places : List (Place Node)) (id : String) : Prop :=
  ∃ before place behind, places = before ++ place :: behind ∧ place.label.id? = some id ∧
    id ∈ idsOf before ∧ (idsOf before).Nodup

/-- The two places belong to the two trees and carry the same id. -/
def SameId (left right place counterpart : Place Node) : Prop :=
  place ∈ left.preorder ∧ counterpart ∈ right.preorder ∧
    ∃ id, place.label.id? = some id ∧ counterpart.label.id? = some id

/-- The pairs that are found for the ids of a left tree, in the order in which they are gone
through, among the ids of a right tree. -/
def pairsFound (leftIds rightIds : List (String × Place Node)) : List (Place Node × Place Node) :=
  leftIds.filterMap fun (id, place) =>
    (rightIds.lookup id).map fun counterpart => (place, counterpart)

/-! ### Refusals -/

/-- Indexing stops at the first place that carries an id that has been seen or read before. -/
theorem index_repeated (seen : List String) {before behind : List (Place Node)} {place : Place Node}
    {id : String} (carried : place.label.id? = some id) (repeated : id ∈ seen ++ idsOf before)
    (fresh : (seen ++ idsOf before).Nodup) :
    indexPlaces seen (before ++ place :: behind) = .error (.duplicateId id) := by
  induction before generalizing seen with
  | nil =>
    have known : id ∈ seen := by simpa [idsOf] using repeated
    simp [indexPlaces, carried, known]
  | cons first rest inductionHypothesis =>
    cases firstId : first.label.id? with
    | none =>
      have later := inductionHypothesis seen (by simpa [idsOf, firstId] using repeated)
        (by simpa [idsOf, firstId] using fresh)
      simp [indexPlaces, firstId, later]
    | some other =>
      have order : (seen ++ other :: idsOf rest).Nodup := by simpa [idsOf, firstId] using fresh
      have member : id ∈ seen ++ other :: idsOf rest := by simpa [idsOf, firstId] using repeated
      have moved := List.nodup_middle.mp order
      have unseen : other ∉ seen := fun known =>
        (List.nodup_cons.mp moved).1 (List.mem_append_left _ known)
      have later := inductionHypothesis (other :: seen) (List.perm_middle.mem_iff.mp member) moved
      simp [indexPlaces, firstId, unseen, later, Except.map]

/-- If ids are repeated, there is a first place that repeats one. -/
theorem exists_first_repeat {places : List (Place Node)} (repeated : ¬ (idsOf places).Nodup) :
    ∃ id, FirstRepeat places id := by
  induction places using List.reverseRecOn with
  | nil => exact absurd List.nodup_nil repeated
  | append_singleton before last inductionHypothesis =>
    by_cases fresh : (idsOf before).Nodup
    · cases carried : last.label.id? with
      | none => exact absurd (by simpa [idsOf, carried] using fresh) repeated
      | some id =>
        refine ⟨id, before, last, [], rfl, carried, ?_, fresh⟩
        by_contra absent
        apply repeated
        have whole : idsOf (before ++ [last]) = idsOf before ++ [id] := by simp [idsOf, carried]
        rw [whole]
        exact List.nodup_middle.mpr
          (List.nodup_cons.mpr ⟨by simpa using absent, by simpa using fresh⟩)
    · obtain ⟨id, front, place, behind, rfl, found⟩ := inductionHypothesis fresh
      exact ⟨id, front, place, behind ++ [last], by simp, found⟩

variable {root : Place Node}

/-- The first place that repeats an id shares it with an earlier one. -/
theorem twice_of_first {id : String} (first : FirstRepeat root.preorder id) :
    CarriedTwice root id := by
  obtain ⟨before, place, behind, whole, carried, repeated, -⟩ := first
  obtain ⟨earlier, member, earlierId⟩ := List.mem_filterMap.mp repeated
  have apart := Place.preorder_paths_differ root
  rw [whole] at apart
  have differ := (List.pairwise_append.mp apart).2.2 earlier member place List.mem_cons_self
  refine ⟨earlier, ?_, place, ?_, fun same => differ (congrArg Place.path same), earlierId, carried⟩
  · rw [whole]
    exact List.mem_append_left _ member
  · rw [whole]
    exact List.mem_append_right _ List.mem_cons_self

/-- Ids are distinct exactly if the list of them has no repetitions. -/
theorem distinct_iff_nodup (root : Place Node) :
    root.tree.DistinctIds ↔ (idsOf root.preorder).Nodup := by
  rw [Tree.DistinctIds, Tree.ids_of_root]
  rfl

/-- Ids are distinct exactly if no id is carried by two nodes. -/
theorem distinct_iff_once (root : Place Node) :
    root.tree.DistinctIds ↔ ¬ ∃ id, CarriedTwice root id := by
  constructor
  · rintro distinct ⟨id, first, firstListed, second, secondListed, different, firstId, secondId⟩
    exact different (Tree.same_below distinct firstListed secondListed firstId secondId)
  · intro once
    rw [distinct_iff_nodup]
    by_contra repeated
    obtain ⟨id, first⟩ := exists_first_repeat repeated
    exact once ⟨id, twice_of_first first⟩

/-- Indexing stops exactly at the first node that repeats an id. -/
theorem index_error_iff (root : Place Node) (error : ExtractError) :
    idIndex root = .error error ↔
      ∃ id, FirstRepeat root.preorder id ∧ error = .duplicateId id := by
  constructor
  · intro stopped
    have repeated : ¬ (idsOf root.preorder).Nodup := fun fresh => by
      rw [id_index root ((distinct_iff_nodup root).mpr fresh)] at stopped
      cases stopped
    obtain ⟨id, before, place, behind, whole, carried, member, fresh⟩ :=
      exists_first_repeat repeated
    have found : indexPlaces [] (before ++ place :: behind) = .error (.duplicateId id) :=
      index_repeated [] carried member fresh
    rw [idIndex, whole, found] at stopped
    exact ⟨id, ⟨before, place, behind, whole, carried, member, fresh⟩,
      (Except.error.inj stopped).symm⟩
  · rintro ⟨id, ⟨before, place, behind, whole, carried, member, fresh⟩, rfl⟩
    rw [idIndex, whole]
    exact index_repeated [] carried member fresh

/-- Indexing succeeds exactly if ids are distinct. -/
theorem index_succeeds_iff (root : Place Node) :
    (∃ ids, idIndex root = .ok ids) ↔ root.tree.DistinctIds := by
  constructor
  · rintro ⟨ids, indexed⟩
    rw [distinct_iff_nodup]
    by_contra repeated
    obtain ⟨id, first⟩ := exists_first_repeat repeated
    rw [(index_error_iff root _).mpr ⟨id, first, rfl⟩] at indexed
    cases indexed
  · exact fun distinct => ⟨_, id_index root distinct⟩

/-- If both trees can be indexed, the pairs that are found are put in the order of the left
index. -/
theorem by_id_found {left right : Place Node} {leftIds rightIds : List (String × Place Node)}
    (leftIndex : idIndex left = .ok leftIds) (rightIndex : idIndex right = .ok rightIds) :
    byId left right = .ok (Pairing.ofList (pairsFound leftIds rightIds)) := by
  rw [byId, leftIndex, rightIndex]
  rfl

/-- Pairing fails if the left tree cannot be indexed, or else if the right one cannot. -/
theorem by_id_error_iff (left right : Place Node) (error : ExtractError) :
    byId left right = .error error ↔ idIndex left = .error error ∨
      (∃ leftIds, idIndex left = .ok leftIds) ∧ idIndex right = .error error := by
  cases leftIndex : idIndex left with
  | error leftError => simp [byId, leftIndex, bind, Except.bind]
  | ok leftIds =>
    cases rightIndex : idIndex right with
    | error rightError => simp [byId, leftIndex, rightIndex, bind, Except.bind]
    | ok rightIds => simp [by_id_found leftIndex rightIndex]

/-- Pairing succeeds exactly if the ids of both trees are distinct. -/
theorem by_id_succeeds_iff (left right : Place Node) :
    (∃ mapping, byId left right = .ok mapping) ↔
      left.tree.DistinctIds ∧ right.tree.DistinctIds := by
  rw [← index_succeeds_iff, ← index_succeeds_iff]
  cases leftIndex : idIndex left with
  | error leftError => simp [byId, leftIndex, bind, Except.bind]
  | ok leftIds =>
    cases rightIndex : idIndex right with
    | error rightError => simp [byId, leftIndex, rightIndex, bind, Except.bind]
    | ok rightIds => simp [by_id_found leftIndex rightIndex]

/-- A refusal names the id of the first node that repeats one, in the left tree if there is one. -/
theorem by_id_names_first (left right : Place Node) (error : ExtractError) :
    byId left right = .error error ↔
      ∃ id, error = .duplicateId id ∧ (FirstRepeat left.preorder id ∨
        (¬ ∃ other, CarriedTwice left other) ∧ FirstRepeat right.preorder id) := by
  rw [by_id_error_iff, index_error_iff, index_error_iff, index_succeeds_iff, distinct_iff_once]
  constructor
  · rintro (⟨id, first, rfl⟩ | ⟨once, id, first, rfl⟩)
    · exact ⟨id, rfl, .inl first⟩
    · exact ⟨id, rfl, .inr ⟨once, first⟩⟩
  · rintro ⟨id, rfl, first | ⟨once, first⟩⟩
    · exact .inl ⟨id, first, rfl⟩
    · exact .inr ⟨once, id, first, rfl⟩

/-! ### Pairs -/

variable {left right : Place Node}

/-- The pairs that are found in pre-order are those of nodes that carry the same id. -/
theorem mem_shared_iff (rightDistinct : right.tree.DistinctIds) (place counterpart : Place Node) :
    (place, counterpart) ∈ sharedIds left right ↔ SameId left right place counterpart := by
  constructor
  · exact shared_ids_sound
  · rintro ⟨listed, counterpartListed, id, carried, counterpartId⟩
    exact shared_ids_complete left right rightDistinct counterpartListed listed counterpartId
      carried

/-- In whatever order the ids of the left tree are gone through, no pair evicts another one, and the
pairs are those of nodes that carry the same id. -/
theorem found_in_any_order (leftDistinct : left.tree.DistinctIds)
    (rightDistinct : right.tree.DistinctIds) {order : List (String × Place Node)}
    (same : order.Perm (left.preorder.filterMap idPair?)) :
    let found := pairsFound order (right.preorder.filterMap idPair?)
    Pairing.EvictsNothing found ∧
      Relates left right (SameId left right) (Pairing.ofList found) := by
  intro found
  have reordered : found.Perm (sharedIds left right) := same.filterMap _
  have apart : Pairing.Apart found := (shared_ids_apart left right leftDistinct).perm reordered
  have related : {pair | pair ∈ found} = {pair | SameId left right pair.1 pair.2} := by
    ext ⟨place, counterpart⟩
    exact reordered.mem_iff.trans (mem_shared_iff rightDistinct place counterpart)
  refine ⟨Pairing.apart_evicts_nothing found apart, relates_of_represents ?_ ?_⟩
  · exact related ▸ Pairing.represents_apart apart
  · exact fun place counterpart ⟨listed, counterpartListed, _⟩ => ⟨listed, counterpartListed⟩

/-- Two trees cannot be paired by id exactly if in one of them two nodes carry an id. The refusal
names the id of the first node in pre-order that repeats an earlier id, in the left tree if that
repeats one and else in the right one, and the edit script is refused for the same reason. Otherwise
nodes are paired exactly if they carry the same id, in whatever order the ids of the left tree are
gone through, and no pair that is put evicts another one.

A tree repeats an id exactly if it cannot be indexed by id, and the index stops at the first
repetition. Where both can be indexed, every pair is found once, so the order in which they are put
does not matter. -/
theorem ids_paired_or_refused (left right : Place Node) :
    ((∃ error, byId left right = .error error) ↔
      ∃ id, CarriedTwice left id ∨ CarriedTwice right id) ∧
    (∀ error, byId left right = .error error ↔
      ∃ id, error = .duplicateId id ∧ (FirstRepeat left.preorder id ∨
        (¬ ∃ other, CarriedTwice left other) ∧ FirstRepeat right.preorder id)) ∧
    (∀ error, Extraction.byId left right = .error error ↔ byId left right = .error error) ∧
    ((¬ ∃ id, CarriedTwice left id ∨ CarriedTwice right id) →
      ∃ leftIds rightIds, idIndex left = .ok leftIds ∧ idIndex right = .ok rightIds ∧
        byId left right = .ok (Pairing.ofList (pairsFound leftIds rightIds)) ∧
        ∀ order, order.Perm leftIds → Pairing.EvictsNothing (pairsFound order rightIds) ∧
          Relates left right (SameId left right)
            (Pairing.ofList (pairsFound order rightIds))) := by
  refine ⟨⟨fun ⟨error, stopped⟩ => ?_, fun ⟨id, twice⟩ => ?_⟩, by_id_names_first left right,
    fun error => ?_, fun once => ?_⟩
  · obtain ⟨id, -, first | ⟨-, first⟩⟩ := (by_id_names_first left right error).mp stopped
    · exact ⟨id, .inl (twice_of_first first)⟩
    · exact ⟨id, .inr (twice_of_first first)⟩
  · cases result : byId left right with
    | error error => exact ⟨error, rfl⟩
    | ok mapping =>
      obtain ⟨leftDistinct, rightDistinct⟩ := (by_id_succeeds_iff left right).mp ⟨mapping, result⟩
      rcases twice with inLeft | inRight
      · exact absurd ⟨id, inLeft⟩ ((distinct_iff_once left).mp leftDistinct)
      · exact absurd ⟨id, inRight⟩ ((distinct_iff_once right).mp rightDistinct)
  · rw [Extraction.byId]
    cases byId left right <;> simp [Except.map]
  · rw [exists_or, not_or] at once
    have leftDistinct := (distinct_iff_once left).mpr once.1
    have rightDistinct := (distinct_iff_once right).mpr once.2
    have leftIndex := id_index left leftDistinct
    have rightIndex := id_index right rightDistinct
    exact ⟨_, _, leftIndex, rightIndex, by_id_found leftIndex rightIndex, fun order same =>
      found_in_any_order leftDistinct rightDistinct same⟩

/-- An item and a word that have changed places are paired with themselves, although the ids of the
left tree are gone through from the last one to the first. -/
theorem exchanged_nodes_paired :
    let item : Node := { Node.bare "item" with id? := some "a" }
    let word : Node := { Node.bare "word" with id? := some "b" }
    let left := Place.top (.node (Node.bare "list") [("0", .leaf item), ("1", .leaf word)])
    let right := Place.top (.node (Node.bare "list") [("0", .leaf word), ("1", .leaf item)])
    ∃ leftIds rightIds, idIndex left = .ok leftIds ∧ idIndex right = .ok rightIds ∧
      Pairing.EvictsNothing (pairsFound leftIds.reverse rightIds) ∧
      (Pairing.ofList (pairsFound leftIds.reverse rightIds)).right? left.postorder[0]! =
        some right.postorder[1]! := by
  intro item word left right
  have once : ¬ ∃ id, CarriedTwice left id ∨ CarriedTwice right id := by
    rw [exists_or, not_or]
    exact ⟨(distinct_iff_once left).mp (by decide), (distinct_iff_once right).mp (by decide)⟩
  obtain ⟨-, -, -, found⟩ := ids_paired_or_refused left right
  obtain ⟨leftIds, rightIds, leftIndex, rightIndex, -, anyOrder⟩ := found once
  obtain ⟨nothing, relates⟩ := anyOrder leftIds.reverse leftIds.reverse_perm
  refine ⟨leftIds, rightIds, leftIndex, rightIndex, nothing, ?_⟩
  have here : left.postorder[0]! ∈ left.preorder := .tail _ (.head _)
  have there : right.postorder[1]! ∈ right.preorder := .tail _ (.tail _ (.head _))
  exact (relates.right? _ here _).mpr ⟨here, there, "a", rfl, rfl⟩

end TreeDelta.Correspondence
