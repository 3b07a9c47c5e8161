import Mathlib.Algebra.Order.Ring.Rat
import Mathlib.Tactic.NormNum
import TreeDelta.Alignment.Cost

/-!
# Exact scales

A scale is exact when its operations are those of ordered numbers without rounding. The test for
equal costs may leave room, as it does on fractions; all that is asked of it here is that every cost
passes as equal to itself.
-/

namespace TreeDelta.CostScale

/-- Costs are exact numbers: they add up and compare as the members of an ordered group do, and a
cost is taken as equal to itself. -/
class Exact (C : Type) [AddCommGroup C] [LinearOrder C] [CostScale C] : Prop where
  zero_eq : (zero : C) = 0
  add_eq : ∀ first second : C, add first second = first + second
  lesser_eq : ∀ first second : C, lesser first second = min first second
  near_self : ∀ cost : C, near cost cost = true

/-- Taking the second of two costs only if it is really smaller gives their minimum. -/
theorem lesser_min {C : Type} [LinearOrder C] (first second : C) :
    (if second < first then second else first) = min first second := by
  rcases lt_or_ge second first with smaller | notSmaller
  · rw [if_pos smaller, min_eq_right smaller.le]
  · rw [if_neg notSmaller.not_gt, min_eq_left notSmaller]

instance : Exact Rat where
  zero_eq := rfl
  add_eq _ _ := rfl
  lesser_eq := lesser_min
  near_self cost := by
    have positive : 0 < tolerance := by norm_num [tolerance]
    simp [near, positive]

end TreeDelta.CostScale
