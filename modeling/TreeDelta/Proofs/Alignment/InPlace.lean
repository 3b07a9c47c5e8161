import TreeDelta.Proofs.Alignment.CheckedRules
import TreeDelta.Proofs.Alignment.OutcomeCost

/-!
# Filling the tables in place

One table of forest distances is filled cell by cell, and whenever both forests are whole trees the
distance is written into the table of distances, which the later cells read. Here this is done one
cell at a time and with every index checked.

The table of forest distances is the one that is computed from the distances as they were before,
because a cell asks only for distances that are not written in the meantime. On an exact scale,
filling a table of forest distances again leaves the finished table of distances as it is.
-/

namespace TreeDelta.Alignment

variable {C : Type}

/-- The cells of a table in the order in which they are filled: the first column, the first row, and
then row by row. The first cell of all needs no filling. -/
def cells (rows columns : Nat) : List (Nat × Nat) :=
  (List.range' 1 rows).map (fun x => (x, 0)) ++ (List.range' 1 columns).map (fun y => (0, y)) ++
    (List.range' 1 rows).flatMap fun x => (List.range' 1 columns).map fun y => (x, y)

/-- All cells but the first are filled. -/
theorem mem_cells (rows columns x y : Nat) :
    (x, y) ∈ cells rows columns ↔ x ≤ rows ∧ y ≤ columns ∧ (x, y) ≠ (0, 0) := by
  simp only [cells, List.mem_append, List.mem_map, List.mem_flatMap, List.mem_range'_1,
    Prod.mk.injEq, ne_eq]
  constructor
  · rintro ((⟨row, bounds, rfl, rfl⟩ | ⟨column, bounds, rfl, rfl⟩) |
      ⟨row, rowBounds, column, bounds, rfl, rfl⟩) <;> omega
  · rintro ⟨inRows, inColumns, notFirst⟩
    by_cases noRows : x = 0
    · exact Or.inl (Or.inr ⟨y, by omega, noRows.symm, rfl⟩)
    · by_cases noColumns : y = 0
      · exact Or.inl (Or.inl ⟨x, by omega, rfl, noColumns.symm⟩)
      · exact Or.inr ⟨x, by omega, y, by omega, rfl, rfl⟩

/-- No cell is filled after one that lies below it or to its right, or both. -/
theorem cells_in_order (rows columns : Nat) :
    (cells rows columns).Pairwise fun early late => ¬(late.1 ≤ early.1 ∧ late.2 ≤ early.2) := by
  have ascending (count : Nat) : (List.range' 1 count).Pairwise (· < ·) := List.pairwise_lt_range'
  have inRow (x : Nat) : ((List.range' 1 columns).map fun y => (x, y)).Pairwise
      fun early late => ¬(late.1 ≤ early.1 ∧ late.2 ≤ early.2) :=
    List.pairwise_map.mpr ((ascending columns).imp fun before => by omega)
  have inColumn : ((List.range' 1 rows).map fun x => (x, 0)).Pairwise
      fun early late => ¬(late.1 ≤ early.1 ∧ late.2 ≤ early.2) :=
    List.pairwise_map.mpr ((ascending rows).imp fun before => by omega)
  simp only [cells, List.pairwise_append, List.pairwise_flatMap, List.mem_append, List.mem_map,
    List.mem_flatMap, List.mem_range'_1]
  refine ⟨⟨inColumn, inRow 0, ?_⟩, ⟨fun x _ => inRow x, (ascending rows).imp fun before => ?_⟩, ?_⟩
  · rintro _ ⟨x, xBounds, rfl⟩ _ ⟨y, yBounds, rfl⟩
    omega
  · rintro _ ⟨y, yBounds, rfl⟩ _ ⟨laterY, laterBounds, rfl⟩
    omega
  · rintro _ (⟨x, xBounds, rfl⟩ | ⟨y, yBounds, rfl⟩) _
      ⟨laterX, laterXBounds, laterY, laterYBounds, rfl⟩ <;> omega

/-- When a cell is filled, every cell that lies above it or to its left, or both, has been
filled. -/
theorem filled_before {rows columns : Nat} {done rest : List (Nat × Nat)} {x y row column : Nat}
    (order : cells rows columns = done ++ (x, y) :: rest) (above : row ≤ x) (toTheLeft : column ≤ y)
    (different : ¬(row = x ∧ column = y)) : (row, column) ∈ (0, 0) :: done := by
  by_cases first : (row, column) = (0, 0)
  · exact first ▸ List.mem_cons_self
  have here : (x, y) ∈ cells rows columns := by simp [order]
  obtain ⟨inRows, inColumns, -⟩ := (mem_cells rows columns x y).mp here
  have listed : (row, column) ∈ cells rows columns :=
    (mem_cells rows columns row column).mpr ⟨by omega, by omega, first⟩
  have inOrder := cells_in_order rows columns
  rw [order, List.pairwise_append, List.pairwise_cons] at inOrder
  rw [order, List.mem_append, List.mem_cons, Prod.mk.injEq] at listed
  rcases listed with before | same | after
  · exact List.mem_cons_of_mem _ before
  · exact absurd same different
  · exact absurd ⟨above, toTheLeft⟩ (inOrder.2.1.1 _ after)

namespace Problem

variable [CostScale C]

/-- Fill the cell of two forests that begin at `li` and `lj`. If both are whole trees, their
distance is written into the table of distances as well. -/
def fillCell? (problem : Problem C) (li lj : Nat) (tables : Table C × Table C) :
    Nat × Nat → Option (Table C × Table C)
  | (x + 1, y + 1) => do
    let (forests, known) := tables
    let value ← problem.rule? known forests li lj (x + 1) (y + 1)
    let filled ← forests.write? (x + 1) (y + 1) value
    if ← problem.begins? li lj (li + x) (lj + y) then
      return (filled, ← known.write? (li + x) (lj + y) value)
    else return (filled, known)
  | (x, y) => do
    let (forests, known) := tables
    return (← forests.write? x y (← problem.rule? known forests li lj x y), known)

/-- Fill the table of forest distances of two subtrees, and the table of distances with it. -/
def fillInPlace? (problem : Problem C) (known : Table C) (i j : Nat) :
    Option (Table C × Table C) := do
  let li ← problem.left.firsts[i]?
  let lj ← problem.right.firsts[j]?
  let rows := (← difference? i li) + 1
  let columns := (← difference? j lj) + 1
  (cells rows columns).foldlM (problem.fillCell? li lj)
    (Table.constant (rows + 1) (columns + 1) CostScale.zero, known)

/-- Fill the tables of all pairs of key roots. -/
def distances? (problem : Problem C) : Option (Table C) :=
  problem.keyRootPairs.foldlM (fun known roots =>
      (problem.fillInPlace? known roots.1 roots.2).map Prod.snd)
    (Table.constant problem.left.size problem.right.size CostScale.zero)

end Problem

section Filling

variable [CostScale C] {problem : Problem C} {known forests : Table C} {i j x y : Nat}

/-- Filling a cell gives it the value of the rule. If both forests are whole trees, the table of
distances gets the same value. -/
theorem cell_filled (complete : problem.Complete) (leftInside : i < problem.left.size)
    (rightInside : j < problem.right.size) (fitting : Fitting problem i j known forests)
    (inRows : problem.left.first i + x ≤ i + 1) (inColumns : problem.right.first j + y ≤ j + 1) :
    problem.fillCell? (problem.left.first i) (problem.right.first j) (forests, known) (x, y) =
      let value := problem.forestRule (Problem.look known) i j (Problem.look forests) x y
      some (forests.set x y value,
        if x ≠ 0 ∧ y ≠ 0 ∧ problem.wholeTrees i j (problem.left.first i + x - 1)
          (problem.right.first j + y - 1) = true
        then known.set (problem.left.first i + x - 1) (problem.right.first j + y - 1) value
        else known) := by
  have ruled := rule_found complete leftInside rightInside fitting inRows inColumns
  have written (value : C) : forests.write? x y value = some (forests.set x y value) :=
    fitting.forests.entry_written (by omega) (by omega) value
  match x, y with
  | 0, y => simp [Problem.fillCell?, ruled, written]
  | x + 1, 0 => simp [Problem.fillCell?, ruled, written]
  | x + 1, y + 1 =>
    have lastLeft : problem.left.first i + x < problem.left.size := by omega
    have lastRight : problem.right.first j + y < problem.right.size := by omega
    have asked : problem.begins? (problem.left.first i) (problem.right.first j)
        (problem.left.first i + x) (problem.right.first j + y) = some (problem.wholeTrees i j
          (problem.left.first i + x) (problem.right.first j + y)) :=
      begins_found complete lastLeft lastRight
    have copied := fitting.known.entry_written lastLeft lastRight
    cases whole : problem.wholeTrees i j (problem.left.first i + x)
        (problem.right.first j + y) with
    | true => simp [Problem.fillCell?, ruled, written, asked, whole, copied, ← Nat.add_assoc]
    | false => simp [Problem.fillCell?, ruled, written, asked, whole, ← Nat.add_assoc]

/-- The tables after the cells in `done` have been filled: these cells have the entries of the table
that is computed from the distances as they were before, and the table of distances has taken over
those of whole trees. -/
structure Filled (problem : Problem C) (known : Table C) (i j : Nat) (done : List (Nat × Nat))
    (tables : Table C × Table C) : Prop where
  fitting : Fitting problem i j tables.2 tables.1
  forests : ∀ cell ∈ (0, 0) :: done, Problem.look tables.1 cell.1 cell.2 =
    Problem.look (problem.forestTable known i j) cell.1 cell.2
  distances : ∀ di dj, dj < problem.right.size → Problem.look tables.2 di dj =
    if (di, dj) ∈ problem.coveredPairs i j ∧
      (di - problem.left.first i + 1, dj - problem.right.first j + 1) ∈ done
    then Problem.look (problem.forestTable known i j) (di - problem.left.first i + 1)
      (dj - problem.right.first j + 1)
    else Problem.look known di dj

/-- Before any cell has been filled, the table of forest distances has nothing but zeros, and the
other one is as it was. -/
theorem filled_start (nested : problem.Nested) (leftInside : i < problem.left.size)
    (rightInside : j < problem.right.size)
    (shaped : known.Shaped problem.left.size problem.right.size) :
    Filled problem known i j [] (Table.constant (i - problem.left.first i + 2)
      (j - problem.right.first j + 2) CostScale.zero, known) where
  fitting := ⟨Table.constant_shaped _ _ _, shaped⟩
  forests := by
    simp only [List.mem_singleton, forall_eq]
    rw [forest_table_rule nested known leftInside rightInside (by omega) (by omega)]
    simp [Problem.look, Table.entry, Table.constant, Problem.forestRule]
  distances := by simp

omit [CostScale C] in
/-- The pair of subtrees whose distance a cell holds is covered if and only if both forests of the
cell are whole trees. -/
theorem covered_at_cell (inRows : problem.left.first i + x ≤ i + 1)
    (inColumns : problem.right.first j + y ≤ j + 1) (di dj : Nat) :
    (di, dj) ∈ problem.coveredPairs i j ∧
        (di - problem.left.first i + 1, dj - problem.right.first j + 1) = (x, y) ↔
      (x ≠ 0 ∧ y ≠ 0 ∧ problem.wholeTrees i j (problem.left.first i + x - 1)
          (problem.right.first j + y - 1) = true) ∧
        di = problem.left.first i + x - 1 ∧ dj = problem.right.first j + y - 1 := by
  rw [mem_covered_pairs, whole_trees_iff, Prod.mk.injEq]
  constructor
  · rintro ⟨⟨⟨leftAfter, leftNotAfter, leftBegins⟩, rightAfter, rightNotAfter, rightBegins⟩,
      rfl, rfl⟩
    have left : problem.left.first i + (di - problem.left.first i + 1) - 1 = di := by omega
    have right : problem.right.first j + (dj - problem.right.first j + 1) - 1 = dj := by omega
    exact ⟨⟨by omega, by omega, by rwa [left], by rwa [right]⟩, left.symm, right.symm⟩
  · rintro ⟨⟨someRows, someColumns, leftBegins, rightBegins⟩, rfl, rfl⟩
    exact ⟨⟨⟨by omega, by omega, leftBegins⟩, by omega, by omega, rightBegins⟩, by omega, by omega⟩

/-- A cell writes into the table of distances the distance of the covered pair that it holds. -/
theorem written_entry (leftInside : i < problem.left.size) (rightInside : j < problem.right.size)
    {present : Table C}
    (shaped : present.Shaped problem.left.size problem.right.size)
    (inRows : problem.left.first i + x ≤ i + 1) (inColumns : problem.right.first j + y ≤ j + 1)
    (value : C) (di : Nat) {dj : Nat} (inside : dj < problem.right.size) :
    Problem.look (if x ≠ 0 ∧ y ≠ 0 ∧ problem.wholeTrees i j (problem.left.first i + x - 1)
          (problem.right.first j + y - 1) = true
        then present.set (problem.left.first i + x - 1) (problem.right.first j + y - 1) value
        else present) di dj =
      if (di, dj) ∈ problem.coveredPairs i j ∧
        (di - problem.left.first i + 1, dj - problem.right.first j + 1) = (x, y)
      then value else Problem.look present di dj := by
  rw [if_congr (covered_at_cell inRows inColumns di dj) rfl rfl]
  split_ifs with written both both
  · exact (shaped.set_entry CostScale.zero (by omega) (by omega) value inside).trans
      (if_pos both.2)
  · exact (shaped.set_entry CostScale.zero (by omega) (by omega) value inside).trans
      (if_neg fun here => both ⟨written, here⟩)
  · exact absurd both.1 written
  · rfl

/-- The cells in `done` and the cell that is filled next belong to the table. -/
theorem cells_inside {rows columns : Nat} {done rest : List (Nat × Nat)}
    (order : cells rows columns = done ++ (x, y) :: rest) :
    ∀ cell ∈ (0, 0) :: (done ++ [(x, y)]), cell.1 ≤ rows ∧ cell.2 ≤ columns := by
  intro cell listed
  rcases List.mem_cons.mp listed with rfl | filling
  · exact ⟨Nat.zero_le _, Nat.zero_le _⟩
  · have member : cell ∈ cells rows columns := by
      rw [order, List.append_cons]
      exact List.mem_append_left rest filling
    obtain ⟨inRows, inColumns, -⟩ := (mem_cells rows columns cell.1 cell.2).mp member
    exact ⟨inRows, inColumns⟩

/-- What the rule gives for the next cell is its entry in the table that is computed from the
distances as they were before. -/
theorem fill_value (nested : problem.Nested) (leftInside : i < problem.left.size)
    (rightInside : j < problem.right.size) {done rest : List (Nat × Nat)}
    (order : cells (i - problem.left.first i + 1) (j - problem.right.first j + 1) =
      done ++ (x, y) :: rest)
    {tables : Table C × Table C} (filled : Filled problem known i j done tables) :
    problem.forestRule (Problem.look tables.2) i j (Problem.look tables.1) x y =
      Problem.look (problem.forestTable known i j) x y := by
  have leftBound := nested.left.first_le i leftInside
  have rightBound := nested.right.first_le j rightInside
  obtain ⟨inRows, inColumns⟩ : x ≤ i - problem.left.first i + 1 ∧
      y ≤ j - problem.right.first j + 1 := cells_inside order (x, y) (by simp)
  rw [forest_table_rule nested known leftInside rightInside (by omega) (by omega)]
  apply forest_rule_congr nested leftInside rightInside (by omega) (by omega)
  · -- A distance that is read belongs to subtrees that are not covered, so it is as it was.
    intro someRows someColumns split
    rw [filled.distances _ _ (by omega), if_neg]
    rintro ⟨covers, -⟩
    obtain ⟨⟨-, -, leftBegins⟩, -, -, rightBegins⟩ := (mem_covered_pairs i j _ _).mp covers
    rw [(whole_trees_iff problem i j _ _).mpr ⟨leftBegins, rightBegins⟩] at split
    exact Bool.noConfusion split
  · intro row column above toTheLeft different
    exact filled.forests _ (filled_before order above toTheLeft different)

/-- Filling the next cell gives it its entry, and gives the table of distances the same entry if
both forests are whole trees.

The entry is the one that the rule gives, because all that it asks for is in the table already; that
is `fill_value`. Shapes and cells follow from writing it. An entry of the distances changes only for
the covered pair whose cell this is. -/
theorem fill_step (complete : problem.Complete) (leftInside : i < problem.left.size)
    (rightInside : j < problem.right.size) {done rest : List (Nat × Nat)}
    (order : cells (i - problem.left.first i + 1) (j - problem.right.first j + 1) =
      done ++ (x, y) :: rest)
    {tables : Table C × Table C} (filled : Filled problem known i j done tables) :
    ∃ next, problem.fillCell? (problem.left.first i) (problem.right.first j) tables (x, y) =
      some next ∧ Filled problem known i j (done ++ [(x, y)]) next := by
  have leftBound := complete.nested.left.first_le i leftInside
  have rightBound := complete.nested.right.first_le j rightInside
  have bounds := cells_inside order
  obtain ⟨inRows, inColumns⟩ : x ≤ i - problem.left.first i + 1 ∧
      y ≤ j - problem.right.first j + 1 := bounds (x, y) (by simp)
  have value := fill_value complete.nested leftInside rightInside order filled
  obtain ⟨forests, present⟩ := tables
  refine ⟨_, cell_filled complete leftInside rightInside filled.fitting (by omega) (by omega), ?_⟩
  simp only [value]
  refine ⟨⟨Table.set_shaped filled.fitting.forests x y _, ?shape⟩, ?cell, ?distance⟩
  case shape =>
    split_ifs
    · exact Table.set_shaped filled.fitting.known _ _ _
    · exact filled.fitting.known
  case cell =>
    intro cell listed
    have inTable := bounds cell listed
    refine (filled.fitting.forests.set_entry CostScale.zero (by omega) (by omega) _
      (by omega)).trans ?_
    split_ifs with here
    · rw [here.1, here.2]
    · apply filled.forests
      simp only [List.mem_cons, List.mem_append, List.not_mem_nil, or_false] at listed ⊢
      exact listed.imp_right fun later => later.resolve_right fun same => here (by simp [same])
  case distance =>
    intro di dj inColumnsOfAll
    rw [written_entry leftInside rightInside filled.fitting.known (by omega) (by omega) _ di
        inColumnsOfAll,
      filled.distances di dj inColumnsOfAll]
    by_cases covers : (di, dj) ∈ problem.coveredPairs i j
    · by_cases here : (di - problem.left.first i + 1, dj - problem.right.first j + 1) = (x, y)
      · obtain ⟨rfl, rfl⟩ := Prod.mk.inj here
        simp [covers]
      · simp [covers, here]
    · simp [covers]

/-- Filling the remaining cells one after the other fills all. -/
theorem fill_run (complete : problem.Complete) (leftInside : i < problem.left.size)
    (rightInside : j < problem.right.size) (done rest : List (Nat × Nat))
    (order : cells (i - problem.left.first i + 1) (j - problem.right.first j + 1) = done ++ rest)
    (tables : Table C × Table C) (filled : Filled problem known i j done tables) :
    ∃ last, rest.foldlM (problem.fillCell? (problem.left.first i) (problem.right.first j)) tables =
      some last ∧ Filled problem known i j
        (cells (i - problem.left.first i + 1) (j - problem.right.first j + 1)) last := by
  induction rest generalizing done tables with
  | nil => exact ⟨tables, rfl, by rwa [order, List.append_nil]⟩
  | cons cell rest inductionHypothesis =>
    obtain ⟨next, found, filledNext⟩ := fill_step complete leftInside rightInside order filled
    obtain ⟨last, foundLast, filledLast⟩ :=
      inductionHypothesis (done ++ [cell]) (by simp [order]) next filledNext
    exact ⟨last, by simp [found, foundLast], filledLast⟩

/-- Taking a pair of subtrees keeps the shape of the table of distances. -/
theorem record_shaped (shaped : known.Shaped problem.left.size problem.right.size) (i j : Nat) :
    (problem.record known (i, j)).Shaped problem.left.size problem.right.size := by
  rw [record_eq]
  exact Table.set_all_shaped shaped _ _

/-- The tables of two subtrees can be filled in place, and every index stays in range. The result is
the table that is computed from the distances as they were before, and the distances that the
covered pairs have in it.

`fill_run` carries `Filled` from before the first cell to behind the last one. Then every cell has
been filled, so both tables have the entries of those that are computed, and tables of the same
shape with the same entries are the same. -/
theorem fill_in_place (complete : problem.Complete) (leftInside : i < problem.left.size)
    (rightInside : j < problem.right.size)
    (shaped : known.Shaped problem.left.size problem.right.size) :
    problem.fillInPlace? known i j =
      some (problem.forestTable known i j, problem.record known (i, j)) := by
  have leftBound := complete.nested.left.first_le i leftInside
  have rightBound := complete.nested.right.first_le j rightInside
  have start := filled_start complete.nested leftInside rightInside shaped
  obtain ⟨⟨forests, present⟩, found, filled⟩ :=
    fill_run complete leftInside rightInside []
      (cells (i - problem.left.first i + 1) (j - problem.right.first j + 1)) rfl _ start
  have listed (x y : Nat) (inRows : x ≤ i - problem.left.first i + 1)
      (inColumns : y ≤ j - problem.right.first j + 1) : (x, y) ∈ (0, 0) ::
        cells (i - problem.left.first i + 1) (j - problem.right.first j + 1) := by
    rw [List.mem_cons, mem_cells, or_iff_not_imp_left]
    exact fun notFirst => ⟨inRows, inColumns, notFirst⟩
  have sameForests : forests = problem.forestTable known i j := by
    refine filled.fitting.forests.ext CostScale.zero (Table.fill_shaped _ _ _ _) ?_
    intro x y inRows inColumns
    exact filled.forests (x, y) (listed x y (by omega) (by omega))
  have sameDistances : present = problem.record known (i, j) := by
    refine filled.fitting.known.ext CostScale.zero (record_shaped shaped i j) ?_
    intro di dj inRows inColumns
    refine (filled.distances di dj inColumns).trans
      (Eq.trans (if_congr ?_ rfl rfl) (record_entry shaped leftInside rightInside di dj
        inColumns).symm)
    -- The cell of every covered pair has been filled.
    refine and_iff_left_of_imp fun covers => ?_
    have bounds := (mem_covered_pairs i j di dj).mp covers
    exact (mem_cells _ _ _ _).mpr ⟨by omega, by omega, by simp⟩
  rw [sameForests, sameDistances] at found
  simp only [Problem.fillInPlace?, Numbering.first_found complete.leftFirsts leftInside,
    Numbering.first_found complete.rightFirsts rightInside, difference_found leftBound,
    difference_found rightBound, Option.bind_eq_bind, Option.bind_some]
  exact found

/-- The table of distances has a row for every node of the left tree and a column for every node of
the right one. -/
theorem distances_shaped (problem : Problem C) :
    problem.distances.Shaped problem.left.size problem.right.size := by
  refine List.foldlRecOn (motive := fun table =>
    table.Shaped problem.left.size problem.right.size) problem.keyRootPairs problem.record
      (Table.constant_shaped _ _ _) ?_
  intro table shaped roots _
  exact record_shaped shaped roots.1 roots.2

/-- The table of distances can be computed in place, and every index stays in range. -/
theorem distances_in_place (complete : problem.Complete) :
    problem.distances? = some problem.distances := by
  have run (roots : List (Nat × Nat)) (inside : ∀ pair ∈ roots, Inside problem pair)
      (table : Table C) (shaped : table.Shaped problem.left.size problem.right.size) :
      roots.foldlM (fun known pair => (problem.fillInPlace? known pair.1 pair.2).map Prod.snd)
        table = some (roots.foldl problem.record table) := by
    induction roots generalizing table with
    | nil => rfl
    | cons pair rest inductionHypothesis =>
      obtain ⟨leftInside, rightInside⟩ := inside pair List.mem_cons_self
      simp only [List.foldlM_cons, fill_in_place complete leftInside rightInside shaped,
        Option.map_some, Option.bind_eq_bind, Option.bind_some, List.foldl_cons]
      exact inductionHypothesis (fun other later => inside other (List.mem_cons_of_mem _ later)) _
        (record_shaped shaped pair.1 pair.2)
  refine run problem.keyRootPairs ?_ _ (Table.constant_shaped _ _ _)
  rintro ⟨i, j⟩ member
  obtain ⟨isLeft, isRight⟩ := (mem_key_root_pairs problem i j).mp member
  exact ⟨((Numbering.mem_key_roots i).mp isLeft).1, ((Numbering.mem_key_roots j).mp isRight).1⟩

section Exact

variable [AddCommGroup C] [LinearOrder C] [IsOrderedAddMonoid C] [CostScale.Exact C]

/-- Taking any pair of subtrees again leaves the finished table of distances as it is. -/
theorem record_again (nested : problem.Nested) (inside : Inside problem (i, j)) :
    problem.record problem.distances (i, j) = problem.distances := by
  have shaped := distances_shaped problem
  refine (record_shaped shaped i j).ext CostScale.zero shaped ?_
  intro di dj inRows inColumns
  refine (record_entry shaped inside.1 inside.2 di dj inColumns).trans ?_
  by_cases covers : (di, dj) ∈ problem.coveredPairs i j
  · obtain ⟨⟨leftAfter, leftNotAfter, leftBegins⟩, rightAfter, rightNotAfter, rightBegins⟩ :=
      (mem_covered_pairs i j di dj).mp covers
    have least := forest_least nested inside (di - problem.left.first i + 1)
      (dj - problem.right.first j + 1) (by omega) (by omega)
    rw [← Nat.add_assoc, ← Nat.add_assoc, Nat.add_sub_cancel' leftAfter,
      Nat.add_sub_cancel' rightAfter, ← leftBegins, ← rightBegins] at least
    rw [if_pos covers, ← leftBegins, ← rightBegins]
    exact least.unique (distances_known nested di dj inRows inColumns)
  · rw [if_neg covers]
    rfl

end Exact

end Filling

end TreeDelta.Alignment
