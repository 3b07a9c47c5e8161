import TreeDelta.Alignment.Distance
import TreeDelta.Proofs.Alignment.NumberedTree

/-!
# Key roots

Every number begins where exactly one key root begins: the highest number that begins there. Inside
the run of a key root, the key root of a number does not lie higher than that, and it is the same
only for the numbers that begin where the run begins. So if pairs of key roots are taken in
ascending order, a pair of subtrees that do not both begin where the present ones begin has been
taken care of before.
-/

namespace TreeDelta.Numbering

variable {numbering : Numbering}

/-- A key root is a number that no later number shares its first number with. -/
theorem mem_key_roots (index : Nat) :
    index ∈ numbering.keyRoots ↔ index < numbering.size ∧
      ∀ later, index < later → later < numbering.size →
        numbering.first later ≠ numbering.first index := by
  simp only [keyRoots, isKeyRoot, List.mem_filter, List.mem_range, List.all_eq_true,
    Bool.or_eq_true, decide_eq_true_eq, bne_iff_ne]
  constructor
  · rintro ⟨inside, highest⟩
    refine ⟨inside, fun later after laterInside => ?_⟩
    exact (highest later laterInside).resolve_left (by omega)
  · rintro ⟨inside, highest⟩
    refine ⟨inside, fun later laterInside => ?_⟩
    by_cases after : index < later
    · exact Or.inr (highest later after laterInside)
    · exact Or.inl (by omega)

/-- Key roots are listed in ascending order. -/
theorem key_roots_ascending : numbering.keyRoots.Pairwise (· < ·) :=
  List.pairwise_lt_range.filter _

/-- Every number begins where some key root begins that is not below it. -/
theorem exists_key_root (index : Nat) (inside : index < numbering.size) :
    ∃ root ∈ numbering.keyRoots, index ≤ root ∧
      numbering.first root = numbering.first index := by
  -- The numbers that could be higher become fewer with every higher number that is found.
  induction room : numbering.size - index using Nat.strong_induction_on generalizing index with
  | _ room inductionHypothesis =>
    by_cases highest : index ∈ numbering.keyRoots
    · exact ⟨index, highest, Nat.le_refl index, rfl⟩
    · rw [mem_key_roots] at highest
      push Not at highest
      obtain ⟨later, after, laterInside, same⟩ := highest inside
      obtain ⟨root, isRoot, above, begins⟩ :=
        inductionHypothesis (numbering.size - later) (by omega) later laterInside rfl
      exact ⟨root, isRoot, by omega, begins.trans same⟩

/-- Inside the run of a key root no key root lies higher. -/
theorem key_root_within (nested : numbering.Nested) {index inner root : Nat}
    (isRoot : index ∈ numbering.keyRoots) (otherRoot : root ∈ numbering.keyRoots)
    (after : numbering.first index ≤ inner) (notAfter : inner ≤ index)
    (begins : numbering.first root = numbering.first inner) : root ≤ index := by
  obtain ⟨indexInside, highest⟩ := (mem_key_roots index).mp isRoot
  have rootInside := ((mem_key_roots root).mp otherRoot).1
  have innerFirst := nested.first_le inner (by omega)
  by_contra! higher
  -- The run of the higher root would hold `index`, and so begin where that begins.
  have reach := nested.first_mono root rootInside index (by omega) (by omega)
  have inside := nested.first_mono index indexInside inner after notAfter
  exact highest root higher rootInside (by omega)

end TreeDelta.Numbering

namespace TreeDelta.Alignment

variable {C : Type} {problem : Problem C}

/-- The pairs that a pair of key roots covers: both subtrees begin where the key roots begin, and
end with them or before. -/
theorem mem_covered_pairs (i j di dj : Nat) :
    (di, dj) ∈ problem.coveredPairs i j ↔
      (problem.left.first i ≤ di ∧ di ≤ i ∧ problem.left.first di = problem.left.first i) ∧
      (problem.right.first j ≤ dj ∧ dj ≤ j ∧ problem.right.first dj = problem.right.first j) := by
  have inRange (first last index : Nat) :
      index ∈ (List.range (last + 1)).drop first ↔ first ≤ index ∧ index ≤ last := by
    rw [List.range_eq_range', List.drop_range', List.mem_range'_1]
    omega
  simp only [Problem.coveredPairs, List.mem_flatMap, List.mem_map, List.mem_filter, inRange,
    beq_iff_eq, Prod.mk.injEq]
  constructor
  · rintro ⟨left, leftBounds, right, rightBounds, rfl, rfl⟩
    exact ⟨⟨leftBounds.1.1, leftBounds.1.2, leftBounds.2⟩,
      ⟨rightBounds.1.1, rightBounds.1.2, rightBounds.2⟩⟩
  · rintro ⟨leftBounds, rightBounds⟩
    exact ⟨di, ⟨⟨leftBounds.1, leftBounds.2.1⟩, leftBounds.2.2⟩,
      dj, ⟨⟨rightBounds.1, rightBounds.2.1⟩, rightBounds.2.2⟩, rfl, rfl⟩

/-- Pairs of key roots are taken in ascending order. -/
theorem key_root_pairs_ascending (problem : Problem C) :
    problem.keyRootPairs.Pairwise fun early late =>
      early.1 < late.1 ∨ early.1 = late.1 ∧ early.2 < late.2 := by
  rw [Problem.keyRootPairs, List.pairwise_flatMap]
  constructor
  · intro i _
    exact Numbering.key_roots_ascending.map _ fun early late before => Or.inr ⟨rfl, before⟩
  · apply Numbering.key_roots_ascending.imp
    intro early late before first firstMember second secondMember
    obtain ⟨_, _, rfl⟩ := List.mem_map.mp firstMember
    obtain ⟨_, _, rfl⟩ := List.mem_map.mp secondMember
    exact Or.inl before

/-- The pairs of key roots are all pairs of a key root of either tree. -/
theorem mem_key_root_pairs (problem : Problem C) (i j : Nat) :
    (i, j) ∈ problem.keyRootPairs ↔ i ∈ problem.left.keyRoots ∧ j ∈ problem.right.keyRoots := by
  simp [Problem.keyRootPairs]

/-- When a pair of key roots is taken, every other pair that lies no higher on either side has been
taken before. -/
theorem taken_before {done rest : List (Nat × Nat)} {i j rootLeft rootRight : Nat}
    (order : problem.keyRootPairs = done ++ (i, j) :: rest)
    (isLeft : rootLeft ∈ problem.left.keyRoots) (isRight : rootRight ∈ problem.right.keyRoots)
    (leftBound : rootLeft ≤ i) (rightBound : rootRight ≤ j)
    (different : (rootLeft, rootRight) ≠ (i, j)) : (rootLeft, rootRight) ∈ done := by
  have ascending := key_root_pairs_ascending problem
  have member := (mem_key_root_pairs problem rootLeft rootRight).mpr ⟨isLeft, isRight⟩
  rw [order] at ascending member
  rcases List.mem_append.mp member with before | now
  · exact before
  · have later := (List.mem_cons.mp now).resolve_left different
    have after := List.rel_of_pairwise_cons (List.pairwise_append.mp ascending).2.1 later
    dsimp only at after
    omega

end TreeDelta.Alignment
