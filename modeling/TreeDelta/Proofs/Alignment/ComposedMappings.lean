import Mathlib.Algebra.Order.BigOperators.Group.Finset
import TreeDelta.Proofs.Alignment.ForestMapping

/-!
# Mappings backwards and one after the other

A mapping from one forest to another is read backwards as a mapping from the other to the one, and
two mappings that meet in a forest in the middle can be made one after the other: a node goes where
its partner goes. Order and ancestors are kept either way.

What such mappings cost depends on the costs of single nodes. Backwards a mapping costs the same if
renaming costs the same both ways and deleting costs what inserting costs. One after the other, two
mappings cost at least what their composition costs if no detour by way of another node is cheaper
than the direct way. The costs are compared at each node in the middle on its own: the node has a
partner on both sides, on one of them, or on none.
-/

namespace TreeDelta

namespace CostModel

variable {C : Type}

/-- The costs are the same in both directions. -/
structure Reversible (cost : CostModel C) : Prop where
  rename_comm : ∀ first second, cost.rename first second = cost.rename second first
  delete_eq_insert : ∀ node, cost.delete node = cost.insert node

/-- No detour by way of another node is cheaper than the direct way. -/
structure Direct [AddCommGroup C] [LinearOrder C] (cost : CostModel C) : Prop where
  rename_le : ∀ first middle last,
    cost.rename first last ≤ cost.rename first middle + cost.rename middle last
  delete_le : ∀ first middle, cost.delete first ≤ cost.rename first middle + cost.delete middle
  insert_le : ∀ middle last, cost.insert last ≤ cost.insert middle + cost.rename middle last
  nothing_le : ∀ middle, 0 ≤ cost.insert middle + cost.delete middle

end CostModel

namespace Alignment

variable {C : Type} {cost : CostModel C} {first middle last : Numbering}
  {firsts middles lasts : Finset Nat} {pairs others : Finset (Nat × Nat)}

/-! ### Backwards -/

/-- A mapping can be read backwards. -/
theorem Fits.swap (fits : Fits ⟨first, last, cost⟩ firsts lasts pairs) :
    Fits ⟨last, first, cost⟩ lasts firsts (pairs.image Prod.swap) := by
  have backwards (pair : Nat × Nat) (member : pair ∈ pairs.image Prod.swap) :
      pair.swap ∈ pairs := by
    obtain ⟨original, originalMember, rfl⟩ := Finset.mem_image.mp member
    exact originalMember
  refine ⟨?_, ?_, ?_, ?_⟩
  · intro pair member
    exact fits.right_mem _ (backwards pair member)
  · intro pair member
    exact fits.left_mem _ (backwards pair member)
  · intro pair member other otherMember
    exact (fits.order _ (backwards pair member) _ (backwards other otherMember)).symm
  · intro pair member other otherMember
    exact (fits.ancestors _ (backwards pair member) _ (backwards other otherMember)).symm

/-- If the costs are the same in both directions, a mapping costs the same backwards. -/
theorem total_swap [AddCommGroup C] (reversible : cost.Reversible)
    (fits : Fits ⟨first, last, cost⟩ firsts lasts pairs) :
    total ⟨last, first, cost⟩ lasts firsts (pairs.image Prod.swap) =
      total ⟨first, last, cost⟩ firsts lasts pairs := by
  have surpluses : ∑ pair ∈ pairs.image Prod.swap, surplus ⟨last, first, cost⟩ pair =
      ∑ pair ∈ pairs, surplus ⟨first, last, cost⟩ pair := by
    rw [Finset.sum_image Prod.swap_injective.injOn]
    refine Finset.sum_congr rfl fun pair _ => ?_
    simp only [surplus, Problem.rename, Problem.delete, Problem.insert, Prod.fst_swap,
      Prod.snd_swap, reversible.rename_comm (last.node _), reversible.delete_eq_insert]
    abel
  rw [total_eq fits.swap, total_eq fits, surpluses]
  simp only [Problem.delete, Problem.insert, reversible.delete_eq_insert]
  abel

/-! ### One after the other -/

/-- The pairs of two mappings that meet in a node in the middle. -/
def meetings (pairs others : Finset (Nat × Nat)) : Finset ((Nat × Nat) × (Nat × Nat)) :=
  (pairs ×ˢ others).filter fun both => both.1.2 = both.2.1

/-- The mapping that comes of making two mappings one after the other. -/
def composed (pairs others : Finset (Nat × Nat)) : Finset (Nat × Nat) :=
  (meetings pairs others).image fun both => (both.1.1, both.2.2)

/-- A pair of the composed mapping leads by way of a node in the middle. -/
theorem mem_composed (pair : Nat × Nat) :
    pair ∈ composed pairs others ↔ ∃ way, (pair.1, way) ∈ pairs ∧ (way, pair.2) ∈ others := by
  simp only [composed, meetings, Finset.mem_image, Finset.mem_filter, Finset.mem_product]
  constructor
  · rintro ⟨⟨⟨i, j⟩, ⟨way, k⟩⟩, ⟨⟨member, otherMember⟩, meet⟩, rfl⟩
    obtain rfl : j = way := meet
    exact ⟨j, member, otherMember⟩
  · rintro ⟨j, member, otherMember⟩
    exact ⟨((pair.1, j), (j, pair.2)), ⟨⟨member, otherMember⟩, rfl⟩, rfl⟩

/-- Two mappings that meet in a forest in the middle can be made one after the other. -/
theorem Fits.compose (fits : Fits ⟨first, middle, cost⟩ firsts middles pairs)
    (othersFit : Fits ⟨middle, last, cost⟩ middles lasts others) :
    Fits ⟨first, last, cost⟩ firsts lasts (composed pairs others) := by
  refine ⟨?_, ?_, ?_, ?_⟩
  · intro pair member
    obtain ⟨way, into, -⟩ := (mem_composed pair).mp member
    exact fits.left_mem (pair.1, way) into
  · intro pair member
    obtain ⟨way, -, out⟩ := (mem_composed pair).mp member
    exact othersFit.right_mem (way, pair.2) out
  · intro pair member other otherMember
    obtain ⟨_, into, out⟩ := (mem_composed pair).mp member
    obtain ⟨_, otherInto, otherOut⟩ := (mem_composed other).mp otherMember
    exact (fits.order _ into _ otherInto).trans (othersFit.order _ out _ otherOut)
  · intro pair member other otherMember
    obtain ⟨_, into, out⟩ := (mem_composed pair).mp member
    obtain ⟨_, otherInto, otherOut⟩ := (mem_composed other).mp otherMember
    exact (fits.ancestors _ into _ otherInto).trans (othersFit.ancestors _ out _ otherOut)

/-- Where pairs are known by their node on one side, each node there belongs to one pair or to
none. -/
theorem none_or_one {side : Nat × Nat → Nat} (known : Set.InjOn side pairs) (j : Nat) :
    pairs.filter (fun pair => side pair = j) = ∅ ∨
      ∃ pair, side pair = j ∧ pairs.filter (fun pair => side pair = j) = {pair} := by
  rcases Finset.eq_empty_or_nonempty (pairs.filter fun pair => side pair = j) with
    none | ⟨pair, found⟩
  · exact .inl none
  · obtain ⟨member, here⟩ := Finset.mem_filter.mp found
    refine .inr ⟨pair, here, Finset.eq_singleton_iff_unique_mem.mpr ⟨found, ?_⟩⟩
    intro other otherFound
    obtain ⟨otherMember, otherHere⟩ := Finset.mem_filter.mp otherFound
    exact known otherMember member (otherHere.trans here.symm)

/-- The pairs that meet in a node are those of its partner on the left with its partner on the
right. -/
theorem meetings_at (j : Nat) :
    (meetings pairs others).filter (fun both => both.1.2 = j) =
      pairs.filter (fun pair => pair.2 = j) ×ˢ others.filter (fun pair => pair.1 = j) := by
  ext both
  simp only [meetings, Finset.mem_filter, Finset.mem_product]
  constructor
  · rintro ⟨⟨⟨member, otherMember⟩, meet⟩, here⟩
    exact ⟨⟨member, here⟩, otherMember, meet.symm.trans here⟩
  · rintro ⟨⟨member, here⟩, otherMember, there⟩
    exact ⟨⟨⟨member, otherMember⟩, here.trans there.symm⟩, here⟩

/-- Different meetings lead to different pairs. -/
theorem Fits.meetings_injective (fits : Fits ⟨first, middle, cost⟩ firsts middles pairs)
    (others : Finset (Nat × Nat)) :
    Set.InjOn (fun both : (Nat × Nat) × (Nat × Nat) => (both.1.1, both.2.2))
      (meetings pairs others) := by
  rintro ⟨⟨i, j⟩, ⟨way, k⟩⟩ member ⟨⟨i', j'⟩, ⟨way', k'⟩⟩ otherMember same
  obtain ⟨paired, meet⟩ := Finset.mem_filter.mp (Finset.mem_coe.mp member)
  obtain ⟨otherPaired, otherMeet⟩ := Finset.mem_filter.mp (Finset.mem_coe.mp otherMember)
  obtain ⟨sameFirst, sameLast⟩ := Prod.mk.inj same
  have sameMiddle : j = j' := (fits.same_iff _ _ (Finset.mem_product.mp paired).1
    (Finset.mem_product.mp otherPaired).1).mp sameFirst
  simp only at meet otherMeet sameFirst sameLast
  simp only [Prod.mk.injEq]
  omega

variable [AddCommGroup C] [LinearOrder C] [IsOrderedAddMonoid C]

/-- At a node in the middle the direct way saves at least what the two ways by it save together,
less what the node costs to insert and delete.

Each of the two mappings pairs the node with at most one other. So there are four cases: it is
paired on both sides, on one of them, or on neither, and in each of them the statement is one of the
inequalities that make the costs direct. -/
theorem surplus_at_le (direct : cost.Direct)
    (fits : Fits ⟨first, middle, cost⟩ firsts middles pairs)
    (othersFit : Fits ⟨middle, last, cost⟩ middles lasts others) (j : Nat) :
    ∑ both ∈ (meetings pairs others).filter (fun both => both.1.2 = j),
        surplus ⟨first, last, cost⟩ (both.1.1, both.2.2) ≤
      cost.insert (middle.node j) + cost.delete (middle.node j) +
        ∑ pair ∈ pairs.filter (fun pair => pair.2 = j), surplus ⟨first, middle, cost⟩ pair +
        ∑ pair ∈ others.filter (fun pair => pair.1 = j), surplus ⟨middle, last, cost⟩ pair := by
  rw [meetings_at]
  rcases none_or_one fits.right_injective j with none | ⟨⟨i, way⟩, here, left⟩
  · rcases none_or_one othersFit.left_injective j with noneRight | ⟨⟨way, k⟩, here, right⟩
    · rw [none, noneRight]
      simpa using direct.nothing_le (middle.node j)
    · obtain rfl : j = way := here.symm
      rw [none, right]
      simp only [Finset.empty_product, Finset.sum_empty, Finset.sum_singleton, surplus,
        Problem.rename, Problem.delete, Problem.insert]
      have saved := sub_nonneg.mpr (direct.insert_le (middle.node j) (last.node k))
      refine saved.trans_eq ?_
      abel
  · obtain rfl : j = way := here.symm
    rcases none_or_one othersFit.left_injective j with noneRight | ⟨⟨way, k⟩, here, right⟩
    · rw [left, noneRight]
      simp only [Finset.product_empty, Finset.sum_empty, Finset.sum_singleton, surplus,
        Problem.rename, Problem.delete, Problem.insert]
      have saved := sub_nonneg.mpr (direct.delete_le (first.node i) (middle.node j))
      refine saved.trans_eq ?_
      abel
    · obtain rfl : j = way := here.symm
      rw [left, right]
      simp only [Finset.singleton_product_singleton, Finset.sum_singleton, surplus,
        Problem.rename, Problem.delete, Problem.insert]
      have saved := sub_nonneg.mpr
        (direct.rename_le (first.node i) (middle.node j) (last.node k))
      rw [← sub_nonneg]
      refine saved.trans_eq ?_
      abel

/-- If no detour is cheaper than the direct way, the composition of two mappings costs no more than
both together. -/
theorem total_composed_le (direct : cost.Direct)
    (fits : Fits ⟨first, middle, cost⟩ firsts middles pairs)
    (othersFit : Fits ⟨middle, last, cost⟩ middles lasts others) :
    total ⟨first, last, cost⟩ firsts lasts (composed pairs others) ≤
      total ⟨first, middle, cost⟩ firsts middles pairs +
        total ⟨middle, last, cost⟩ middles lasts others := by
  have meets : ∀ both ∈ meetings pairs others, both.1.2 ∈ middles := by
    intro both member
    exact fits.right_mem _ (Finset.mem_product.mp (Finset.mem_filter.mp member).1).1
  have saved : ∑ pair ∈ composed pairs others, surplus ⟨first, last, cost⟩ pair ≤
      ∑ j ∈ middles, (cost.insert (middle.node j) + cost.delete (middle.node j)) +
        ∑ pair ∈ pairs, surplus ⟨first, middle, cost⟩ pair +
        ∑ pair ∈ others, surplus ⟨middle, last, cost⟩ pair := by
    rw [composed, Finset.sum_image (fits.meetings_injective others),
      ← Finset.sum_fiberwise_of_maps_to meets, ← Finset.sum_fiberwise_of_maps_to fits.right_mem,
      ← Finset.sum_fiberwise_of_maps_to othersFit.left_mem, ← Finset.sum_add_distrib,
      ← Finset.sum_add_distrib]
    exact Finset.sum_le_sum fun j _ => surplus_at_le direct fits othersFit j
  rw [total_eq (fits.compose othersFit), total_eq fits, total_eq othersFit]
  rw [Finset.sum_add_distrib, ← sub_nonneg] at saved
  rw [← sub_nonneg]
  refine saved.trans_eq ?_
  simp only [Problem.delete, Problem.insert]
  abel

end Alignment

end TreeDelta
