import Mathlib.Data.List.Pairwise
import TreeDelta.Correspondence
import TreeDelta.Proofs.Named
import TreeDelta.Proofs.Pairing
import TreeDelta.Proofs.Tree.Preorder

/-!
# Pairing by id

When no tree repeats an id, an id is as good as a place: it is found where it was read, the index of
ids holds every node that has one, and nodes are paired exactly because they carry the same id.
Nodes without id take no part, so they may be as many as they like.
-/

namespace TreeDelta

/-- Places count as the same exactly when their paths are. -/
theorem Place.equal_iff {α : Type} (first second : Place α) :
    (first == second) = true ↔ first.path = second.path := by
  change (first.path == second.path) = true ↔ _
  exact beq_iff_eq

/-- Comparing places is an equivalence, although places of different trees may count as the same. -/
instance {α : Type} : EquivBEq (Place α) where
  symm same := (Place.equal_iff _ _).mpr ((Place.equal_iff _ _).mp same).symm
  trans same next := (Place.equal_iff _ _).mpr
    (((Place.equal_iff _ _).mp same).trans ((Place.equal_iff _ _).mp next))
  rfl := (Place.equal_iff _ _).mpr rfl

namespace Tree

/-- The ids of a tree in pre-order. Nodes without id are left out. -/
def ids (tree : SyntaxTree) : List String := tree.preorder.filterMap Node.id?

/-- Whether no two nodes of a tree carry the same id. -/
def DistinctIds (tree : SyntaxTree) : Prop := tree.ids.Nodup

instance (tree : SyntaxTree) : Decidable tree.DistinctIds :=
  inferInstanceAs (Decidable (List.Nodup _))

/-- The ids can be read off the places as well, wherever the tree stands. -/
theorem ids_of_root (root : Place Node) :
    root.tree.ids = root.preorder.filterMap fun place => place.label.id? := by
  rw [ids, ← Place.preorder_labels root, List.filterMap_map]
  rfl

/-- The ids of a tree can be read off the places below its top. -/
theorem ids_of_places (tree : SyntaxTree) :
    tree.ids = (Place.top tree).preorder.filterMap fun place => place.label.id? :=
  ids_of_root (Place.top tree)

/-- Below a place a node is told by its id. -/
theorem same_below {root first second : Place Node} {id : String}
    (distinct : root.tree.DistinctIds) (firstListed : first ∈ root.preorder)
    (secondListed : second ∈ root.preorder) (firstId : first.label.id? = some id)
    (secondId : second.label.id? = some id) : first = second := by
  have apart : root.preorder.Pairwise fun early late =>
      ∀ earlyId, early.label.id? = some earlyId →
        ∀ lateId, late.label.id? = some lateId → earlyId ≠ lateId := by
    rw [← List.pairwise_filterMap, ← ids_of_root]
    exact distinct
  have symmetric : Std.Symm fun early late : Place Node =>
      ∀ earlyId, early.label.id? = some earlyId →
        ∀ lateId, late.label.id? = some lateId → earlyId ≠ lateId :=
    ⟨fun _ _ differ lateId lateHas earlyId earlyHas same =>
      differ earlyId earlyHas lateId lateHas same.symm⟩
  by_contra different
  exact apart.forall firstListed secondListed different id firstId id secondId rfl

/-- A node is told by its id. -/
theorem DistinctIds.same_place {tree : SyntaxTree} (distinct : tree.DistinctIds)
    {first second : Place Node} {id : String}
    (firstListed : first ∈ (Place.top tree).preorder)
    (secondListed : second ∈ (Place.top tree).preorder)
    (firstId : first.label.id? = some id) (secondId : second.label.id? = some id) :
    first = second :=
  same_below distinct firstListed secondListed firstId secondId

end Tree

namespace Address

/-- An id leads to the node that carries it. -/
theorem find_by_id {tree : SyntaxTree} (distinct : tree.DistinctIds) {place : Place Node}
    {id : String} (listed : place ∈ (Place.top tree).preorder)
    (carried : place.label.id? = some id) : findById? (Place.top tree) id = some place := by
  cases found : findById? (Place.top tree) id with
  | none =>
    have absent := List.find?_eq_none.mp found place listed
    simp [carried] at absent
  | some other =>
    have otherId : other.label.id? = some id := by simpa using List.find?_some found
    have otherListed := List.mem_of_find?_eq_some found
    rw [distinct.same_place otherListed listed otherId carried]

end Address

namespace Correspondence

/-- A place with its id, if it has one. -/
def idPair? (place : Place Node) : Option (String × Place Node) :=
  place.label.id?.map fun id => (id, place)

/-- The entry of a place has the id of the place. -/
theorem id_pair_iff (place : Place Node) (entry : String × Place Node) :
    idPair? place = some entry ↔ entry.2 = place ∧ place.label.id? = some entry.1 := by
  obtain ⟨id, other⟩ := entry
  simp only [idPair?, Option.map_eq_some_iff, Prod.mk.injEq]
  constructor
  · rintro ⟨_, carried, rfl, rfl⟩
    exact ⟨rfl, carried⟩
  · rintro ⟨rfl, carried⟩
    exact ⟨id, carried, rfl, rfl⟩

/-- Indexing succeeds if no id repeats another one or one that has been seen. -/
theorem index_places (seen : List String) (places : List (Place Node))
    (fresh : (seen ++ places.filterMap fun place => place.label.id?).Nodup) :
    indexPlaces seen places = .ok (places.filterMap idPair?) := by
  induction places generalizing seen with
  | nil => rfl
  | cons place rest inductionHypothesis =>
    cases carried : place.label.id? with
    | none =>
      have restFresh : (seen ++ rest.filterMap fun place => place.label.id?).Nodup := by
        simpa [carried] using fresh
      simp [indexPlaces, carried, idPair?, inductionHypothesis seen restFresh]
    | some id =>
      have order : (seen ++ id :: rest.filterMap fun place => place.label.id?).Nodup := by
        simpa [carried] using fresh
      have moved := List.nodup_middle.mp order
      have unseen : id ∉ seen := fun member =>
        (List.nodup_cons.mp moved).1 (List.mem_append_left _ member)
      have later := inductionHypothesis (id :: seen) moved
      simp [indexPlaces, carried, unseen, idPair?, later, Except.map]

/-- The index of a tree without repeated ids holds every node that has one. -/
theorem id_index (root : Place Node) (distinct : root.tree.DistinctIds) :
    idIndex root = .ok (root.preorder.filterMap idPair?) := by
  apply index_places
  rw [List.nil_append, ← Tree.ids_of_root]
  exact distinct

/-- The pairs of nodes that carry the same id, in pre-order of the left tree. -/
def sharedIds (left right : Place Node) : List (Place Node × Place Node) :=
  (left.preorder.filterMap idPair?).filterMap fun (id, place) =>
    ((right.preorder.filterMap idPair?).lookup id).map fun counterpart => (place, counterpart)

/-- Paired nodes belong to the two trees and carry the same id. -/
theorem shared_ids_sound {left right : Place Node} {pair : Place Node × Place Node}
    (paired : pair ∈ sharedIds left right) :
    pair.1 ∈ left.preorder ∧ pair.2 ∈ right.preorder ∧
      ∃ id, pair.1.label.id? = some id ∧ pair.2.label.id? = some id := by
  obtain ⟨⟨id, place⟩, listed, looked⟩ := List.mem_filterMap.mp paired
  obtain ⟨counterpart, found, rfl⟩ := Option.map_eq_some_iff.mp looked
  obtain ⟨source, sourceListed, sourceEntry⟩ := List.mem_filterMap.mp listed
  obtain ⟨rfl, sourceId⟩ := (id_pair_iff _ _).mp sourceEntry
  obtain ⟨present, member, same⟩ := Named.mem_of_lookup found
  obtain ⟨target, targetListed, targetEntry⟩ := List.mem_filterMap.mp member
  obtain ⟨rfl, targetId⟩ := (id_pair_iff _ _).mp targetEntry
  obtain rfl : id = present := by simpa using same
  exact ⟨sourceListed, targetListed, id, sourceId, targetId⟩

/-- Nodes that carry the same id are paired if the ids of the right tree are distinct. -/
theorem shared_ids_complete (left right : Place Node) (rightDistinct : right.tree.DistinctIds)
    {place counterpart : Place Node} {id : String} (listed : place ∈ right.preorder)
    (counterpartListed : counterpart ∈ left.preorder) (carried : place.label.id? = some id)
    (counterpartId : counterpart.label.id? = some id) :
    (counterpart, place) ∈ sharedIds left right := by
  have keys : ((right.preorder.filterMap idPair?).map Prod.fst).Nodup := by
    have ids : (right.preorder.filterMap idPair?).map Prod.fst = right.tree.ids := by
      rw [Tree.ids_of_root, List.map_filterMap]
      refine List.filterMap_congr fun other _ => ?_
      simp [idPair?, Function.comp_def]
    rw [ids]
    exact rightDistinct
  have entry : (id, place) ∈ right.preorder.filterMap idPair? :=
    List.mem_filterMap.mpr ⟨place, listed, (id_pair_iff _ _).mpr ⟨rfl, carried⟩⟩
  refine List.mem_filterMap.mpr ⟨(id, counterpart), ?_, ?_⟩
  · exact List.mem_filterMap.mpr
      ⟨counterpart, counterpartListed, (id_pair_iff _ _).mpr ⟨rfl, counterpartId⟩⟩
  · simp [Named.lookup_named keys entry]

/-- If the ids of the left tree are distinct, no node takes part in two pairs. -/
theorem shared_ids_apart (left right : Place Node) (leftDistinct : left.tree.DistinctIds) :
    Pairing.Apart (sharedIds left right) := by
  have leftsDiffer : (sharedIds left right).Pairwise
      fun early late => early.1.path ≠ late.1.path := by
    refine List.Pairwise.filterMap _ ?_ (List.Pairwise.filterMap _ ?_
      (Place.preorder_paths_differ left)) (R := fun early late =>
        early.2.path ≠ late.2.path)
    · intro early late differ earlyPair earlyFound latePair lateFound
      obtain ⟨_, _, rfl⟩ := Option.map_eq_some_iff.mp earlyFound
      obtain ⟨_, _, rfl⟩ := Option.map_eq_some_iff.mp lateFound
      exact differ
    · intro early late differ earlyEntry earlyFound lateEntry lateFound
      rwa [((id_pair_iff _ _).mp earlyFound).1, ((id_pair_iff _ _).mp lateFound).1]
  refine ⟨leftsDiffer.imp fun differ => ?_, leftsDiffer.imp_of_mem fun early late differ => ?_⟩
  · rw [Bool.eq_false_iff, ne_eq, Place.equal_iff]
    exact differ.symm
  · rw [Bool.eq_false_iff, ne_eq, Place.equal_iff]
    intro samePath
    obtain ⟨earlyLeft, earlyRight, earlyId, earlyLeftId, earlyRightId⟩ := shared_ids_sound early
    obtain ⟨lateLeft, lateRight, lateId, lateLeftId, lateRightId⟩ := shared_ids_sound late
    have sameRight := Place.Reaches.eq_of_path ((Place.mem_preorder_iff _ _).mp lateRight)
      ((Place.mem_preorder_iff _ _).mp earlyRight) samePath
    rw [sameRight, earlyRightId] at lateRightId
    obtain rfl := Option.some.inj lateRightId
    exact differ (congrArg Place.path
      (Tree.same_below leftDistinct earlyLeft lateLeft earlyLeftId lateLeftId))

/-- Pairing by id succeeds if no tree repeats an id. -/
theorem by_id_pairs {left right : SyntaxTree} (leftDistinct : left.DistinctIds)
    (rightDistinct : right.DistinctIds) :
    byId (Place.top left) (Place.top right) =
      .ok (Pairing.ofList (sharedIds (Place.top left) (Place.top right))) := by
  have leftIndex := id_index (Place.top left) leftDistinct
  have rightIndex := id_index (Place.top right) rightDistinct
  simp only [byId, leftIndex, rightIndex]
  rfl

/-- A correspondence by id: whatever counterpart a node of the right tree has belongs to the left
tree and carries the node's id. -/
def ById (left right : Place Node) (mapping : Correspondence) : Prop :=
  ∀ place ∈ right.preorder, ∀ counterpart, mapping.left? place = some counterpart →
    counterpart ∈ left.preorder ∧
      ∃ id, counterpart.label.id? = some id ∧ place.label.id? = some id

/-- Pairing by id gives a correspondence by id. -/
theorem by_id_sound {left : SyntaxTree} (right : SyntaxTree) (leftDistinct : left.DistinctIds) :
    ById (Place.top left) (Place.top right)
      (Pairing.ofList (sharedIds (Place.top left) (Place.top right))) := by
  intro place listed counterpart found
  have apart := shared_ids_apart (Place.top left) (Place.top right) leftDistinct
  obtain ⟨pair, paired, rfl, same⟩ := apart.left_found found
  obtain ⟨leftListed, rightListed, carried⟩ := shared_ids_sound paired
  have samePlace := Place.Reaches.eq_of_path ((Place.mem_preorder_iff _ _).mp listed)
    ((Place.mem_preorder_iff _ _).mp rightListed) ((Place.equal_iff _ _).mp same)
  rw [samePlace]
  exact ⟨leftListed, carried⟩

/-- Pairing by id gives a node of the right tree the node of the left tree that carries the same
id. -/
theorem by_id_complete {left right : SyntaxTree} (leftDistinct : left.DistinctIds)
    (rightDistinct : right.DistinctIds) {place counterpart : Place Node} {id : String}
    (listed : place ∈ (Place.top right).preorder)
    (counterpartListed : counterpart ∈ (Place.top left).preorder)
    (carried : place.label.id? = some id) (counterpartId : counterpart.label.id? = some id) :
    (Pairing.ofList (sharedIds (Place.top left) (Place.top right))).left? place =
      some counterpart := by
  have paired := shared_ids_complete (Place.top left) (Place.top right) rightDistinct listed
    counterpartListed carried counterpartId
  exact (shared_ids_apart (Place.top left) (Place.top right) leftDistinct).left_of_member paired

/-- Nodes of the right tree have the counterparts in the left tree that carry the same id, and no
others. -/
def PairsIds (left right : Place Node) (mapping : Correspondence) : Prop :=
  ∀ place ∈ right.preorder, ∀ counterpart, mapping.left? place = some counterpart ↔
    counterpart ∈ left.preorder ∧
      ∃ id, counterpart.label.id? = some id ∧ place.label.id? = some id

/-- Pairing by id pairs exactly the nodes that carry the same id. -/
theorem by_id_exact {left right : SyntaxTree} (leftDistinct : left.DistinctIds)
    (rightDistinct : right.DistinctIds) :
    ∃ mapping, byId (Place.top left) (Place.top right) = .ok mapping ∧
      PairsIds (Place.top left) (Place.top right) mapping := by
  refine ⟨_, by_id_pairs leftDistinct rightDistinct, fun place listed counterpart => ?_⟩
  constructor
  · exact by_id_sound right leftDistinct place listed counterpart
  · rintro ⟨counterpartListed, id, counterpartId, placeId⟩
    exact by_id_complete leftDistinct rightDistinct listed counterpartListed placeId counterpartId

/-- A node without id has no counterpart. -/
theorem PairsIds.unnamed {left right : Place Node} {mapping : Correspondence}
    (paired : PairsIds left right mapping) {place : Place Node} (listed : place ∈ right.preorder)
    (absent : place.label.id? = none) : mapping.left? place = none := by
  cases found : mapping.left? place with
  | none => rfl
  | some counterpart =>
    obtain ⟨-, id, -, carried⟩ := (paired place listed counterpart).mp found
    rw [absent] at carried
    cases carried

end Correspondence

end TreeDelta
