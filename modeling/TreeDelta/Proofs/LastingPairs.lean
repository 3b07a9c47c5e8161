import TreeDelta.Proofs.Alignment.OrderedCorrespondence
import TreeDelta.Proofs.RelatedPlaces

/-!
# Pairs that last

A pair that is put into a pairing takes the place of those that share a member with it. So after a
list of pairs has been put, a pair of the list is there exactly if none of those behind its last
occurrence shares a member with it. Whether one that does is itself there in the end plays no part:
nothing that has been evicted comes back unless it is put again.

Pairs of positions in two trees are put only if all of them lie within the trees. Different
positions have different places, so what holds of the positions holds of the places.
-/

namespace TreeDelta

namespace Pairing

variable {α β : Type} [BEq α] [BEq β]

/-- Whether two pairs have a left or a right member in common. -/
def Shares (first second : α × β) : Prop :=
  (first.1 == second.1) = true ∨ (first.2 == second.2) = true

/-- A pair of a list lasts if no pair behind its last occurrence shares a member with it. A pair
shares its members with itself, so behind any other occurrence there is one that does. -/
def Lasts (pairs : List (α × β)) (pair : α × β) : Prop :=
  ∃ before behind, pairs = before ++ pair :: behind ∧ ∀ other ∈ behind, ¬ Shares pair other

/-- One more pair at the end of a list lasts, and so does every pair that has lasted so far, unless
it shares a member with the new one. -/
theorem lasts_concat (pairs : List (α × β)) (last pair : α × β) :
    Lasts (pairs ++ [last]) pair ↔ pair = last ∨ Lasts pairs pair ∧ ¬ Shares pair last := by
  constructor
  · rintro ⟨before, behind, whole, apart⟩
    cases behind using List.reverseRecOn with
    | nil =>
      obtain ⟨-, same⟩ := List.append_inj' whole rfl
      exact .inl (List.singleton_inj.mp same).symm
    | append_singleton behind final =>
      rw [← List.cons_append, ← List.append_assoc] at whole
      obtain ⟨rfl, same⟩ := List.append_inj' whole rfl
      obtain rfl := List.singleton_inj.mp same
      exact .inr ⟨⟨before, behind, rfl, fun other member =>
        apart other (List.mem_append_left _ member)⟩, apart last (by simp)⟩
  · rintro (rfl | ⟨⟨before, behind, rfl, apart⟩, different⟩)
    · exact ⟨pairs, [], rfl, by simp⟩
    · refine ⟨before, behind ++ [last], by simp, fun other member => ?_⟩
      rcases List.mem_append.mp member with early | late
      · exact apart other early
      · exact List.mem_singleton.mp late ▸ different

/-- Putting a list of pairs into the empty relation leaves those that last. -/
theorem collected_lasting (pairs : List (α × β)) :
    (Operation.collect pairs).relate ∅ = {pair | Lasts pairs pair} := by
  induction pairs using List.reverseRecOn with
  | nil =>
    ext pair
    simp [Operation.relate, Lasts]
  | append_singleton before last inductionHypothesis =>
    ext pair
    rw [Operation.relate] at inductionHypothesis ⊢
    rw [List.foldl_append, inductionHypothesis, List.foldl_cons, List.foldl_nil]
    simp [withPair, withoutRight, withoutLeft, lasts_concat, Shares, and_assoc]

/-- After a list of pairs has been put, a pairing holds those that last. -/
theorem represents_lasting [EquivBEq α] [EquivBEq β] (pairs : List (α × β)) :
    Represents (ofList pairs) {pair | Lasts pairs pair} :=
  collected_lasting pairs ▸ Represents.of_list pairs

/-- Images of pairs last if the pairs do, as long as taking images brings no members together. -/
theorem lasts_map {γ δ : Type} [BEq γ] [BEq δ] {image : α × β → γ × δ} {pairs : List (α × β)}
    (faithful : ∀ pair ∈ pairs, ∀ other ∈ pairs,
      Shares (image pair) (image other) ↔ Shares pair other) (target : γ × δ) :
    Lasts (pairs.map image) target ↔ ∃ pair, Lasts pairs pair ∧ image pair = target := by
  constructor
  · rintro ⟨before, behind, whole, apart⟩
    obtain ⟨early, later, rfl, rfl, rest⟩ := List.map_eq_append_iff.mp whole
    obtain ⟨pair, late, rfl, rfl, rfl⟩ := List.map_eq_cons_iff.mp rest
    refine ⟨pair, ⟨early, late, rfl, fun other member shared => ?_⟩, rfl⟩
    exact apart _ (List.mem_map_of_mem member)
      ((faithful pair (by simp) other (by simp [member])).mpr shared)
  · rintro ⟨pair, ⟨before, behind, rfl, apart⟩, rfl⟩
    refine ⟨before.map image, behind.map image, by simp, fun other member shared => ?_⟩
    obtain ⟨late, lateMember, rfl⟩ := List.mem_map.mp member
    exact apart late lateMember
      ((faithful pair (by simp) late (by simp [lateMember])).mp shared)

/-- A pair that is evicted does not last unless it is put again, whatever becomes of the pair that
has evicted it. -/
theorem evicted_for_good [EquivBEq α] {before behind : List (α × β)} {pair other : α × β}
    (last : pair ∉ behind) (evicting : other ∈ behind) (shared : Shares pair other) :
    ¬ Lasts (before ++ pair :: behind) pair := by
  rintro ⟨front, rest, whole, apart⟩
  have final : pair ∉ rest := fun member => apart pair member (.inl BEq.rfl)
  -- Both occurrences are the last one, so the same pairs stand behind them.
  have same : behind = rest := by
    rcases List.append_eq_append_iff.mp whole with ⟨between, -, tail⟩ | ⟨between, -, tail⟩
    · cases between with
      | nil => exact (List.cons.inj tail).2
      | cons first between =>
        obtain ⟨-, rfl⟩ := List.cons.inj tail
        exact absurd (by simp) last
    · cases between with
      | nil => exact (List.cons.inj tail).2.symm
      | cons first between =>
        obtain ⟨-, rfl⟩ := List.cons.inj tail
        exact absurd (by simp) final
  exact apart other (same ▸ evicting) shared

end Pairing

namespace Correspondence

variable {left right : Place Node} {pairs : List (Nat × Nat)}

instance (left right : SyntaxTree) (pair : Nat × Nat) : Decidable (Within left right pair) :=
  inferInstanceAs (Decidable (_ ∧ _))

/-- The places at two positions of a tree are the same exactly if the positions are. -/
theorem place_equal_iff (place : Place Node) {first second : Nat}
    (firstInside : first < place.tree.size) (secondInside : second < place.tree.size) :
    (place.postorder[first]! == place.postorder[second]!) = true ↔ first = second := by
  constructor
  · intro same
    rcases Nat.lt_trichotomy first second with before | equal | after
    · have different := places_differ place first second before secondInside
      rw [BEq.comm, same] at different
      cases different
    · exact equal
    · have different := places_differ place second first after firstInside
      rw [same] at different
      cases different
  · rintro rfl
    exact BEq.rfl

/-- Pairs of places have a member in common exactly if the pairs of their positions have. -/
theorem places_share {pair other : Nat × Nat} (within : Within left.tree right.tree pair)
    (otherWithin : Within left.tree right.tree other) :
    Pairing.Shares (placesAt left right pair) (placesAt left right other) ↔
      Pairing.Shares pair other := by
  rw [Pairing.Shares, Pairing.Shares, placesAt, placesAt,
    place_equal_iff left within.1 otherWithin.1, place_equal_iff right within.2 otherWithin.2,
    beq_iff_eq, beq_iff_eq]

/-- Whether two places stand at one of the given pairs of positions in the post-order of their
trees. -/
def AtPositions (left right : Place Node) (paired : Nat × Nat → Prop)
    (place counterpart : Place Node) : Prop :=
  ∃ pair, left.postorder[pair.1]? = some place ∧ right.postorder[pair.2]? = some counterpart ∧
    paired pair

/-- The first of a list of pairs of positions that does not lie within two trees. -/
def FirstOutside (left right : SyntaxTree) (pairs : List (Nat × Nat)) (pair : Nat × Nat) : Prop :=
  ∃ before behind, pairs = before ++ pair :: behind ∧
    (∀ other ∈ before, Within left right other) ∧ ¬ Within left right pair

/-- The places at a pair of positions stand there. -/
theorem places_at_iff {pair : Nat × Nat} (within : Within left.tree right.tree pair)
    (place counterpart : Place Node) :
    placesAt left right pair = (place, counterpart) ↔
      left.postorder[pair.1]? = some place ∧ right.postorder[pair.2]? = some counterpart := by
  have leftInside : pair.1 < left.postorder.length := left.postorder_length ▸ within.1
  have rightInside : pair.2 < right.postorder.length := right.postorder_length ▸ within.2
  rw [placesAt, getElem!_pos left.postorder pair.1 leftInside,
    getElem!_pos right.postorder pair.2 rightInside, Prod.mk.injEq,
    List.getElem?_eq_getElem leftInside, List.getElem?_eq_getElem rightInside, Option.some.injEq,
    Option.some.injEq]

/-- A place stands at one position only. -/
theorem same_position {place found : Place Node} {first second : Nat}
    (firstFound : place.postorder[first]? = some found)
    (secondFound : place.postorder[second]? = some found) : first = second := by
  have unique : place.postorder.Nodup :=
    (Place.postorder_paths_differ place).imp fun differ same => differ (congrArg Place.path same)
  have inside : first < place.postorder.length := (List.getElem?_eq_some_iff.mp firstFound).1
  exact (List.getElem?_inj inside unique).mp (firstFound.trans secondFound.symm)

/-- Pairs of positions that lie within two trees pair the nodes at those of them that last. -/
theorem positions_relate (within : ∀ pair ∈ pairs, Within left.tree right.tree pair) :
    Relates left right (AtPositions left right (Pairing.Lasts pairs))
      (Pairing.ofList (pairs.map (placesAt left right))) := by
  have inside {pair : Nat × Nat} (lasts : Pairing.Lasts pairs pair) :
      Within left.tree right.tree pair := by
    obtain ⟨before, behind, rfl, -⟩ := lasts
    exact within pair (by simp)
  have lasting : {pair | Pairing.Lasts (pairs.map (placesAt left right)) pair} =
      {pair | AtPositions left right (Pairing.Lasts pairs) pair.1 pair.2} := by
    ext ⟨place, counterpart⟩
    change Pairing.Lasts _ _ ↔ AtPositions left right _ place counterpart
    rw [Pairing.lasts_map fun pair member other otherMember =>
      places_share (within pair member) (within other otherMember)]
    refine exists_congr fun pair => ?_
    constructor
    · rintro ⟨lasts, placed⟩
      obtain ⟨here, there⟩ := (places_at_iff (inside lasts) place counterpart).mp placed
      exact ⟨here, there, lasts⟩
    · rintro ⟨here, there, lasts⟩
      exact ⟨lasts, (places_at_iff (inside lasts) place counterpart).mpr ⟨here, there⟩⟩
  refine relates_of_represents (lasting ▸ Pairing.represents_lasting _) ?_
  rintro place counterpart ⟨pair, here, there, -⟩
  exact ⟨left.preorder_perm.mem_iff.mpr (List.mem_of_getElem? here),
    right.preorder_perm.mem_iff.mpr (List.mem_of_getElem? there)⟩

/-- A pair of positions that does not lie within two trees has no places. -/
theorem look_up_outside {pair : Nat × Nat} (outside : ¬ Within left.tree right.tree pair)
    (behind : List (Nat × Nat)) :
    lookUpPairs left.postorder right.postorder (pair :: behind) =
      .error (.pairOutOfRange pair.1 pair.2 left.tree.size right.tree.size) := by
  obtain ⟨leftIndex, rightIndex⟩ := pair
  simp only [lookUpPairs, List.mapM_cons, Place.postorder_length]
  rcases not_and_or.mp outside with leftOutside | rightOutside
  · have absent : left.postorder[leftIndex]? = none := by
      simpa [left.postorder_length] using leftOutside
    rw [absent]
    rfl
  · have absent : right.postorder[rightIndex]? = none := by
      simpa [right.postorder_length] using rightOutside
    rw [absent]
    cases left.postorder[leftIndex]? <;> rfl

/-- Looking up stops at the first pair that does not lie within the two trees. -/
theorem by_postorder_outside {pair : Nat × Nat}
    (first : FirstOutside left.tree right.tree pairs pair) :
    byPostorder left right pairs =
      .error (.pairOutOfRange pair.1 pair.2 left.tree.size right.tree.size) := by
  obtain ⟨before, behind, rfl, within, outside⟩ := first
  have early := look_up_within within
  have late := look_up_outside outside behind
  rw [lookUpPairs] at early late
  rw [byPostorder, lookUpPairs, List.mapM_append, early, late]
  rfl

/-- If a pair does not lie within two trees, there is a first one. -/
theorem exists_first_outside {left right : SyntaxTree}
    (outside : ∃ pair ∈ pairs, ¬ Within left right pair) :
    ∃ pair, FirstOutside left right pairs pair := by
  induction pairs with
  | nil => simp at outside
  | cons pair rest inductionHypothesis =>
    by_cases within : Within left right pair
    · have later : ∃ other ∈ rest, ¬ Within left right other := by
        obtain ⟨other, member, without⟩ := outside
        rcases List.mem_cons.mp member with rfl | late
        · exact absurd within without
        · exact ⟨other, late, without⟩
      obtain ⟨first, before, behind, rfl, early, without⟩ := inductionHypothesis later
      exact ⟨first, pair :: before, behind, rfl, List.forall_mem_cons.mpr ⟨within, early⟩, without⟩
    · exact ⟨pair, [], rest, rfl, by simp, within⟩

/-- Pairs of positions are refused exactly if one of them does not lie within the two trees, and the
refusal names the first such pair and both sizes. Otherwise the nodes at two positions are paired
exactly if the pair of positions is in the list and none behind its last occurrence shares a
position with it. So a pair that is evicted by a later one is gone unless it is put again, even if
the later one is evicted in turn.

Positions are looked up from the front, so the refusal is that of the first pair outside. If none
is, the places are put one by one, and which pairs last is decided by the list alone. -/
theorem positions_paired_or_refused (left right : Place Node) (pairs : List (Nat × Nat)) :
    ((∃ error, byPostorder left right pairs = .error error) ↔
      ∃ pair ∈ pairs, ¬ Within left.tree right.tree pair) ∧
    (∀ error, byPostorder left right pairs = .error error ↔
      ∃ pair, FirstOutside left.tree right.tree pairs pair ∧
        error = .pairOutOfRange pair.1 pair.2 left.tree.size right.tree.size) ∧
    ((∀ pair ∈ pairs, Within left.tree right.tree pair) →
      ∃ mapping, byPostorder left right pairs = .ok mapping ∧
        Relates left right (AtPositions left right (Pairing.Lasts pairs)) mapping ∧
        ∀ before pair behind, pairs = before ++ pair :: behind → pair ∉ behind →
          (∃ other ∈ behind, Pairing.Shares pair other) →
            placesAt left right pair ∉ mapping.pairs) := by
  have accepted (within : ∀ pair ∈ pairs, Within left.tree right.tree pair) :
      byPostorder left right pairs =
        .ok (Pairing.ofList (pairs.map (placesAt left right))) := by
    rw [byPostorder, look_up_within within]
    rfl
  have refused {error : ExtractError} (found : byPostorder left right pairs = .error error) :
      ∃ pair ∈ pairs, ¬ Within left.tree right.tree pair := by
    by_contra within
    push Not at within
    rw [accepted within] at found
    cases found
  refine ⟨⟨?_, fun outside => ?_⟩, fun error => ⟨fun found => ?_, ?_⟩,
    fun within => ⟨_, accepted within, positions_relate within, ?_⟩⟩
  · rintro ⟨error, found⟩
    exact refused found
  · obtain ⟨pair, first⟩ := exists_first_outside outside
    exact ⟨_, by_postorder_outside first⟩
  · obtain ⟨pair, first⟩ := exists_first_outside (refused found)
    rw [by_postorder_outside first] at found
    exact ⟨pair, first, (Except.error.inj found).symm⟩
  · rintro ⟨pair, first, rfl⟩
    exact by_postorder_outside first
  · rintro before pair behind rfl last ⟨other, member, shared⟩ paired
    obtain ⟨here, there⟩ := (places_at_iff (within pair (by simp)) _ _).mp rfl
    obtain ⟨lasting, found, otherFound, lasts⟩ := ((positions_relate within).pairs _ _).mp paired
    obtain rfl : lasting = pair :=
      Prod.ext (same_position found here) (same_position otherFound there)
    exact Pairing.evicted_for_good last member shared lasts

/-- Of three pairs the second evicts the first and is evicted by the third. The first does not come
back. -/
theorem first_pair_not_restored :
    let items : SyntaxTree := .node (Node.bare "list")
      [("0", .leaf (Node.bare "item")), ("1", .leaf (Node.bare "item"))]
    let place := Place.top items
    ∃ mapping, byPostorder place place [(0, 0), (0, 1), (1, 1)] = .ok mapping ∧
      placesAt place place (0, 0) ∉ mapping.pairs ∧ placesAt place place (0, 1) ∉ mapping.pairs ∧
      mapping.right? place.postorder[1]! = some place.postorder[1]! := by
  intro items place
  obtain ⟨-, -, accepted⟩ := positions_paired_or_refused place place [(0, 0), (0, 1), (1, 1)]
  obtain ⟨mapping, found, relates, evicted⟩ := accepted (by decide)
  refine ⟨mapping, found, ?_, ?_, ?_⟩
  · exact evicted [] (0, 0) [(0, 1), (1, 1)] rfl (by decide) ⟨(0, 1), by decide, .inl rfl⟩
  · exact evicted [(0, 0)] (0, 1) [(1, 1)] rfl (by decide) ⟨(1, 1), by decide, .inr rfl⟩
  · refine (relates.right? _ (.tail _ (.tail _ (.head _))) _).mpr ⟨(1, 1), rfl, rfl, ?_⟩
    exact ⟨[(0, 0), (0, 1)], [], rfl, by simp⟩

end Correspondence

end TreeDelta
