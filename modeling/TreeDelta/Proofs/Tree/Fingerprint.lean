import TreeDelta.Tree.Comparison

/-!
# Fingerprints tell trees apart

A fingerprint has no brackets, but the number of children stands in it before the children. So of a
list of entries that begins with a fingerprint one knows where the fingerprint ends, and behind it
anything may follow: this is what the induction needs, since behind the fingerprint of a child stand
those of its siblings. Two fingerprints are the same exactly if the trees are equal as far as kinds,
values and shape go.

A hasher is fed with the entries one by one. What it has made of a tree is what it makes of the
fingerprint, so equal trees have the same hash, and a hasher that keeps all lists of entries apart
keeps different trees apart.
-/

namespace TreeDelta.Tree

variable {State : Type}

mutual

/-- The state of a hasher after it has been fed with a tree: the top and then the branches. -/
def hashed (take : State → Trace → State) (state : State) : SyntaxTree → State
  | .node top branches =>
    let kind := take state (.kind top.kind)
    let value := take kind (.value top.value?)
    hashedBranches take (take value (.childCount branches.length)) branches

/-- The state of a hasher after it has been fed with a list of branches. -/
def hashedBranches (take : State → Trace → State) (state : State) :
    List (String × SyntaxTree) → State
  | [] => state
  | (_, child) :: rest => hashedBranches take (hashed take state child) rest

end

mutual

/-- A hasher makes of a tree what it makes of the fingerprint. -/
theorem hashed_eq_foldl (take : State → Trace → State) (state : State) (tree : SyntaxTree) :
    hashed take state tree = (fingerprint tree).foldl take state := by
  cases tree with
  | node top branches =>
    rw [hashed, fingerprint, hashed_branches_eq_foldl take _ branches]
    rfl

/-- The same for a list of branches. -/
theorem hashed_branches_eq_foldl (take : State → Trace → State) (state : State)
    (branches : List (String × SyntaxTree)) :
    hashedBranches take state branches = (fingerprintBranches branches).foldl take state := by
  cases branches with
  | nil => rfl
  | cons branch rest =>
    rw [hashedBranches, fingerprintBranches, List.foldl_append,
      hashed_eq_foldl take state branch.2, hashed_branches_eq_foldl take _ rest]

end

/-- Lists of branches that agree are of the same length. -/
theorem length_of_agreeing {ids relations : Bool} {first second : List (String × SyntaxTree)}
    (agree : agreesBranches ids relations first second = true) : first.length = second.length := by
  induction first generalizing second with
  | nil =>
    cases second with
    | nil => rfl
    | cons other others => simp [agreesBranches] at agree
  | cons branch rest inductionHypothesis =>
    cases second with
    | nil => simp [agreesBranches] at agree
    | cons other others =>
      rw [agreesBranches, Bool.and_eq_true] at agree
      rw [List.length_cons, List.length_cons, inductionHypothesis agree.2]

mutual

/-- Two lists that begin with fingerprints are the same exactly if the trees agree and what stands
behind the fingerprints is the same. -/
theorem fingerprint_append_iff (first second : SyntaxTree) (firstRest secondRest : List Trace) :
    fingerprint first ++ firstRest = fingerprint second ++ secondRest ↔
      first.agrees false false second = true ∧ firstRest = secondRest := by
  cases first with
  | node firstTop firstBranches =>
    cases second with
    | node secondTop secondBranches =>
      have tops : firstTop.agrees false secondTop = true ↔
          firstTop.kind = secondTop.kind ∧ firstTop.value? = secondTop.value? := by
        simp [Node.agrees]
      simp only [fingerprint, List.cons_append, List.cons.injEq, Trace.kind.injEq,
        Trace.value.injEq, Trace.childCount.injEq, agrees, Bool.and_eq_true, tops]
      constructor
      · rintro ⟨kind, value, count, below⟩
        obtain ⟨agree, rest⟩ := (fingerprint_branches_append_iff firstBranches secondBranches count
          firstRest secondRest).mp below
        exact ⟨⟨⟨kind, value⟩, agree⟩, rest⟩
      · rintro ⟨⟨⟨kind, value⟩, agree⟩, rest⟩
        have count := length_of_agreeing agree
        exact ⟨kind, value, count, (fingerprint_branches_append_iff firstBranches secondBranches
          count firstRest secondRest).mpr ⟨agree, rest⟩⟩

/-- The same for two lists of branches, as long as there are as many of them. -/
theorem fingerprint_branches_append_iff (first second : List (String × SyntaxTree))
    (count : first.length = second.length) (firstRest secondRest : List Trace) :
    fingerprintBranches first ++ firstRest = fingerprintBranches second ++ secondRest ↔
      agreesBranches false false first second = true ∧ firstRest = secondRest := by
  cases first with
  | nil =>
    obtain rfl := List.eq_nil_of_length_eq_zero count.symm
    simp [fingerprintBranches, agreesBranches]
  | cons branch rest =>
    cases second with
    | nil => cases count
    | cons other others =>
      have restCount : rest.length = others.length := Nat.succ.inj count
      rw [fingerprintBranches, fingerprintBranches, List.append_assoc, List.append_assoc,
        fingerprint_append_iff branch.2 other.2,
        fingerprint_branches_append_iff rest others restCount, agreesBranches]
      simp [and_assoc]

end

/-- Whatever two trees hang below two nodes: their fingerprints are the same exactly if the trees
agree in kinds, values and shape. So any hasher makes the same of trees that agree, and one that
makes different things of different lists of entries makes different things of other trees.

That fingerprints tell trees apart is proved for a tree with anything behind it, as the fingerprint
of a node holds those of its children one behind the other. -/
theorem same_fingerprint_iff (take : State → Trace → State) (start : State)
    (first second : SyntaxTree) :
    (fingerprint first = fingerprint second ↔ first.agrees false false second = true) ∧
      (first.agrees false false second = true →
        hashed take start first = hashed take start second) ∧
      (Function.Injective (List.foldl take start) → first.agrees false false second = false →
        hashed take start first ≠ hashed take start second) := by
  have exactly : fingerprint first = fingerprint second ↔
      first.agrees false false second = true := by
    simpa using fingerprint_append_iff first second [] []
  refine ⟨exactly, ?_, ?_⟩
  · intro agree
    rw [hashed_eq_foldl, hashed_eq_foldl, exactly.mpr agree]
  · intro keepsApart differ same
    rw [hashed_eq_foldl, hashed_eq_foldl] at same
    rw [exactly.mp (keepsApart same)] at differ
    cases differ

/-- A hasher that writes down what it is fed with keeps two lists apart that have the same nodes in
the same order, one word below the other or both side by side. -/
theorem nested_words_hash_apart :
    let take : List Trace → Trace → List Trace := fun written entry => written ++ [entry]
    let word : SyntaxTree := .leaf (Node.bare "word")
    let nested : SyntaxTree :=
      .node (Node.bare "list") [("0", .node (Node.bare "word") [("0", word)])]
    let beside : SyntaxTree := .node (Node.bare "list") [("0", word), ("1", word)]
    Function.Injective (List.foldl take []) ∧ nested.agrees false false beside = false ∧
      nested.preorder = beside.preorder ∧ hashed take [] nested ≠ hashed take [] beside := by
  intro take word nested beside
  have keepsApart : Function.Injective (List.foldl take []) := by
    have written (entries : List Trace) : entries.foldl take [] = entries := by
      simp [take, ← List.flatMap_def]
    intro one other same
    rwa [written, written] at same
  have differ : nested.agrees false false beside = false := by decide
  exact ⟨keepsApart, differ, rfl,
    (same_fingerprint_iff take [] nested beside).2.2 keepsApart differ⟩

end TreeDelta.Tree
