import Mathlib.Data.List.Induction
import Mathlib.Data.List.Pairwise
import TreeDelta.Pairing
import TreeDelta.Proofs.Named

/-!
# Pairings without evictions

A pair that is put takes its members out of the pairs they were in. If no two pairs of a list share
a member, putting them one after the other evicts nothing, and the pairing has exactly the pairs of
the list.
-/

namespace TreeDelta.Pairing

variable {α β : Type} [BEq α] [BEq β]

/-- Whenever a pair of the list is put, neither of its members has a partner. -/
def EvictsNothing (pairs : List (α × β)) : Prop :=
  ∀ before pair after, pairs = before ++ pair :: after →
    (ofList before).hasLeft pair.1 = false ∧ (ofList before).hasRight pair.2 = false

/-- No two pairs of the list share a member. -/
structure Apart (pairs : List (α × β)) : Prop where
  lefts : pairs.Pairwise fun first second => (second.1 == first.1) = false
  rights : pairs.Pairwise fun first second => (second.2 == first.2) = false

/-- Putting two members that have no partners adds their pair. -/
theorem insert_free (pairing : Pairing α β) (left : α) (right : β)
    (leftFree : pairing.hasLeft left = false) (rightFree : pairing.hasRight right = false) :
    pairing.insert left right =
      ⟨(left, right) :: pairing.rightOf, (right, left) :: pairing.leftOf⟩ := by
  have noRight : pairing.right? left = none := by simpa [hasLeft] using leftFree
  have noLeft : pairing.left? right = none := by simpa [hasRight] using rightFree
  simp [insert, put, removeLeft, removeRight, noRight, noLeft]

/-- The last pair of a list is put last. -/
theorem of_list_concat (pairs : List (α × β)) (pair : α × β) :
    ofList (pairs ++ [pair]) = (ofList pairs).insert pair.1 pair.2 := by
  simp [ofList]

/-- If the pairing has the pairs of a list, the members of a pair that stands apart from them are
free. -/
theorem free_of_apart {before after : List (α × β)} {pair : α × β}
    (apart : Apart (before ++ pair :: after))
    (exactly : ofList before = ⟨before.reverse, (before.map Prod.swap).reverse⟩) :
    (ofList before).hasLeft pair.1 = false ∧ (ofList before).hasRight pair.2 = false := by
  have leftApart := (List.pairwise_append.mp apart.lefts).2.2
  have rightApart := (List.pairwise_append.mp apart.rights).2.2
  rw [exactly]
  constructor
  · have absent : before.reverse.lookup pair.1 = none := by
      rw [List.lookup_eq_none_iff]
      intro entry member
      simpa [bne] using leftApart entry (List.mem_reverse.mp member) pair List.mem_cons_self
    simp [hasLeft, right?, absent]
  · have absent : (before.map Prod.swap).reverse.lookup pair.2 = none := by
      rw [List.lookup_eq_none_iff]
      intro entry member
      obtain ⟨other, otherMember, rfl⟩ := List.mem_map.mp (List.mem_reverse.mp member)
      simpa [bne] using rightApart other otherMember pair List.mem_cons_self
    simp [hasRight, left?, absent]

/-- Pairs without common members are all kept, from either side. -/
theorem of_list_apart (pairs : List (α × β)) (apart : Apart pairs) :
    ofList pairs = ⟨pairs.reverse, (pairs.map Prod.swap).reverse⟩ := by
  induction pairs using List.reverseRecOn with
  | nil => rfl
  | append_singleton before pair inductionHypothesis =>
    have earlier : Apart before :=
      ⟨(List.pairwise_append.mp apart.lefts).1, (List.pairwise_append.mp apart.rights).1⟩
    have exactly := inductionHypothesis earlier
    obtain ⟨leftFree, rightFree⟩ := free_of_apart apart exactly
    rw [of_list_concat, insert_free _ _ _ leftFree rightFree, exactly, List.reverse_append,
      List.map_append, List.reverse_append]
    rfl

/-- Pairs without common members evict nothing. -/
theorem apart_evicts_nothing (pairs : List (α × β)) (apart : Apart pairs) :
    EvictsNothing pairs := by
  rintro before pair after rfl
  have earlier : Apart before :=
    ⟨(List.pairwise_append.mp apart.lefts).1, (List.pairwise_append.mp apart.rights).1⟩
  exact free_of_apart apart (of_list_apart before earlier)

/-- A left partner that is found has been put with a right member that is the same. -/
theorem Apart.left_found {pairs : List (α × β)} (apart : Apart pairs) {left : α} {right : β}
    (found : (ofList pairs).left? right = some left) :
    ∃ pair ∈ pairs, pair.1 = left ∧ (right == pair.2) = true := by
  rw [of_list_apart _ apart] at found
  obtain ⟨present, member, same⟩ := Named.mem_of_lookup found
  obtain ⟨pair, paired, swapped⟩ := List.mem_map.mp (List.mem_reverse.mp member)
  obtain ⟨rfl, rfl⟩ := Prod.mk.inj swapped
  exact ⟨pair, paired, rfl, same⟩

/-- A pair without common members with others is found from its right member. -/
theorem Apart.left_of_member [EquivBEq β] {pairs : List (α × β)} (apart : Apart pairs)
    {pair : α × β} (member : pair ∈ pairs) : (ofList pairs).left? pair.2 = some pair.1 := by
  have keys : (pairs.map Prod.swap).reverse.Pairwise fun first second =>
      (second.1 == first.1) = false := by
    rw [List.pairwise_reverse, List.pairwise_map]
    exact apart.rights.imp fun differ => by rwa [BEq.comm]
  rw [of_list_apart _ apart, left?, Named.lookup_iff keys]
  exact ⟨pair.2, List.mem_reverse.mpr (List.mem_map_of_mem member), BEq.rfl⟩

/-- Of pairs without common members two are the same as soon as their left members are. -/
theorem Apart.eq_of_left [EquivBEq α] {pairs : List (α × β)} (apart : Apart pairs)
    {first second : α × β} (firstMember : first ∈ pairs) (secondMember : second ∈ pairs)
    (same : (first.1 == second.1) = true) : first = second := by
  by_contra different
  have symmetric : Std.Symm fun early late : α × β => (late.1 == early.1) = false :=
    ⟨fun _ _ differ => by rwa [BEq.comm]⟩
  have differ := apart.lefts.forall secondMember firstMember (Ne.symm different)
  rw [same] at differ
  cases differ

end TreeDelta.Pairing
