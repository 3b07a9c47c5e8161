import TreeDelta.Proofs.Alignment.ForestTable
import TreeDelta.Proofs.Alignment.KeyRoots

/-!
# The table of distances

The pairs of key roots are taken one after the other, and each adds the distances of the pairs of
subtrees that it covers. When a pair is taken, every distance that its forests ask for has been
added before, so what it adds are least costs. After the last pair every pair of subtrees has been
covered.
-/

namespace TreeDelta.Alignment

variable {C : Type} [CostScale C] {problem : Problem C}

/-- Taking a pair of key roots gives the pairs that it covers the distances of their forests. -/
theorem record_eq (problem : Problem C) (table : Table C) (i j : Nat) :
    problem.record table (i, j) = table.setAll (problem.coveredPairs i j) fun di dj =>
      Problem.look (problem.forestTable table i j) (di - problem.left.first i + 1)
        (dj - problem.right.first j + 1) := rfl

omit [CostScale C] in
/-- A pair of key roots covers pairs of subtrees only. -/
theorem covered_inside {i j : Nat} (leftInside : i < problem.left.size)
    (rightInside : j < problem.right.size) :
    ∀ place ∈ problem.coveredPairs i j,
      place.1 < problem.left.size ∧ place.2 < problem.right.size := by
  rintro ⟨di, dj⟩ member
  have bounds := (mem_covered_pairs i j di dj).mp member
  exact ⟨by omega, by omega⟩

/-- Taking a pair of key roots replaces the distances of the pairs that it covers, and keeps the
others. -/
theorem record_entry {table : Table C}
    (shaped : table.Shaped problem.left.size problem.right.size) {i j : Nat}
    (leftInside : i < problem.left.size) (rightInside : j < problem.right.size) (di dj : Nat)
    (inColumns : dj < problem.right.size) :
    Problem.look (problem.record table (i, j)) di dj =
      if (di, dj) ∈ problem.coveredPairs i j then
        Problem.look (problem.forestTable table i j) (di - problem.left.first i + 1)
          (dj - problem.right.first j + 1)
      else Problem.look table di dj := by
  rw [record_eq]
  exact Table.set_all_entry CostScale.zero shaped _ _ (covered_inside leftInside rightInside)
    inColumns

section Exact

variable [AddCommGroup C] [LinearOrder C]

/-- The distances of all pairs of subtrees that the pairs of key roots in `done` cover are known. -/
structure Recorded (problem : Problem C) (done : List (Nat × Nat)) (table : Table C) : Prop where
  shaped : table.Shaped problem.left.size problem.right.size
  known : ∀ roots ∈ done, ∀ pair ∈ problem.coveredPairs roots.1 roots.2,
    Known problem table pair.1 pair.2

/-- When a pair of key roots is taken, the distances that its forests ask for are known. -/
theorem Recorded.enough {done rest : List (Nat × Nat)} {table : Table C} {i j : Nat}
    (recorded : Recorded problem done table) (nested : problem.Nested)
    (order : problem.keyRootPairs = done ++ (i, j) :: rest) (di dj : Nat)
    (leftAfter : problem.left.first i ≤ di) (leftNotAfter : di ≤ i)
    (rightAfter : problem.right.first j ≤ dj) (rightNotAfter : dj ≤ j)
    (split : problem.wholeTrees i j di dj = false) : Known problem table di dj := by
  have member : (i, j) ∈ problem.keyRootPairs := by simp [order]
  obtain ⟨isLeft, isRight⟩ := (mem_key_root_pairs problem i j).mp member
  have leftInside := ((Numbering.mem_key_roots i).mp isLeft).1
  have rightInside := ((Numbering.mem_key_roots j).mp isRight).1
  have leftFirst := nested.left.first_le di (by omega)
  have rightFirst := nested.right.first_le dj (by omega)
  obtain ⟨rootLeft, rootIsLeft, leftAbove, leftBegins⟩ :=
    Numbering.exists_key_root di (by omega : di < problem.left.size)
  obtain ⟨rootRight, rootIsRight, rightAbove, rightBegins⟩ :=
    Numbering.exists_key_root dj (by omega : dj < problem.right.size)
  have leftBound := Numbering.key_root_within nested.left isLeft rootIsLeft leftAfter leftNotAfter
    leftBegins
  have rightBound := Numbering.key_root_within nested.right isRight rootIsRight rightAfter
    rightNotAfter rightBegins
  have different : (rootLeft, rootRight) ≠ (i, j) := by
    rintro same
    obtain ⟨rfl, rfl⟩ := Prod.mk.inj same
    have whole := (whole_trees_iff problem rootLeft rootRight di dj).mpr
      ⟨leftBegins.symm, rightBegins.symm⟩
    rw [whole] at split
    exact Bool.noConfusion split
  have taken := taken_before order rootIsLeft rootIsRight leftBound rightBound different
  exact recorded.known (rootLeft, rootRight) taken (di, dj)
    ((mem_covered_pairs rootLeft rootRight di dj).mpr
      ⟨⟨by omega, leftAbove, leftBegins.symm⟩, ⟨by omega, rightAbove, rightBegins.symm⟩⟩)

variable [CostScale.Exact C] [IsOrderedAddMonoid C]

/-- Taking a pair of key roots keeps the distances that are known, and makes known those of the
pairs that it covers.

The forest table of the pair is least, because the distances that it asks for are known already. A
pair of subtrees that the key roots cover gets its entry from it; every other pair keeps the entry
that it had, and must then have been covered before. -/
theorem record_step (nested : problem.Nested) {done rest : List (Nat × Nat)} {table : Table C}
    {i j : Nat} (order : problem.keyRootPairs = done ++ (i, j) :: rest)
    (recorded : Recorded problem done table) :
    Recorded problem (done ++ [(i, j)]) (problem.record table (i, j)) := by
  have member : (i, j) ∈ problem.keyRootPairs := by simp [order]
  obtain ⟨isLeft, isRight⟩ := (mem_key_root_pairs problem i j).mp member
  have leftInside := ((Numbering.mem_key_roots i).mp isLeft).1
  have rightInside := ((Numbering.mem_key_roots j).mp isRight).1
  have entry := record_entry recorded.shaped leftInside rightInside
  have least := forest_table_least nested table leftInside rightInside
    (recorded.enough nested order)
  have shaped : (problem.record table (i, j)).Shaped problem.left.size problem.right.size := by
    rw [record_eq]
    exact Table.set_all_shaped recorded.shaped _ _
  refine ⟨shaped, ?_⟩
  rintro roots taken ⟨di, dj⟩ covers
  have rootsMember : roots ∈ problem.keyRootPairs := by
    rw [order]
    simp only [List.mem_append, List.mem_cons, List.not_mem_nil, or_false] at taken ⊢
    exact taken.imp id Or.inl
  have rootsInside := (mem_key_root_pairs problem roots.1 roots.2).mp rootsMember
  have rightRoot := ((Numbering.mem_key_roots roots.2).mp rootsInside.2).1
  have bounds := (mem_covered_pairs roots.1 roots.2 di dj).mp covers
  unfold Known
  rw [entry di dj (by omega)]
  by_cases now : (di, dj) ∈ problem.coveredPairs i j
  · obtain ⟨⟨leftAfter, leftNotAfter, leftBegins⟩, ⟨rightAfter, rightNotAfter, rightBegins⟩⟩ :=
      (mem_covered_pairs i j di dj).mp now
    have added := least (di - problem.left.first i + 1) (dj - problem.right.first j + 1)
      (by omega) (by omega)
    rw [if_pos now, leftBegins, rightBegins]
    rwa [← Nat.add_assoc, ← Nat.add_assoc, Nat.add_sub_cancel' leftAfter,
      Nat.add_sub_cancel' rightAfter] at added
  · rw [if_neg now]
    refine recorded.known roots ?_ (di, dj) covers
    refine (List.mem_append.mp taken).resolve_right fun last => ?_
    rw [List.mem_singleton.mp last] at covers
    exact now covers

/-- Once all pairs of key roots have been taken, the distances of all pairs that they cover are
known. -/
theorem record_run (nested : problem.Nested) (done rest : List (Nat × Nat)) (table : Table C)
    (order : problem.keyRootPairs = done ++ rest) (recorded : Recorded problem done table) :
    Recorded problem problem.keyRootPairs (rest.foldl problem.record table) := by
  induction rest generalizing done table with
  | nil => simpa [order] using recorded
  | cons roots rest inductionHypothesis =>
    have step := record_step nested order recorded
    exact inductionHypothesis (done ++ [roots]) (problem.record table roots) (by simp [order]) step

/-- The table of distances holds the least cost for every pair of subtrees. -/
theorem distances_known (nested : problem.Nested) (i j : Nat) (leftInside : i < problem.left.size)
    (rightInside : j < problem.right.size) :
    Known problem problem.distances i j := by
  have start : Recorded problem [] (Table.constant problem.left.size problem.right.size
      (CostScale.zero : C)) :=
    ⟨Table.constant_shaped _ _ _, fun roots member => absurd member List.not_mem_nil⟩
  have recorded := record_run nested [] _ _ rfl start
  obtain ⟨rootLeft, isLeft, leftAbove, leftBegins⟩ := Numbering.exists_key_root i leftInside
  obtain ⟨rootRight, isRight, rightAbove, rightBegins⟩ := Numbering.exists_key_root j rightInside
  have leftFirst := nested.left.first_le i leftInside
  have rightFirst := nested.right.first_le j rightInside
  exact recorded.known (rootLeft, rootRight)
    ((mem_key_root_pairs problem rootLeft rootRight).mpr ⟨isLeft, isRight⟩) (i, j)
    ((mem_covered_pairs rootLeft rootRight i j).mpr
      ⟨⟨by omega, leftAbove, leftBegins.symm⟩, ⟨by omega, rightAbove, rightBegins.symm⟩⟩)

end Exact

end TreeDelta.Alignment
