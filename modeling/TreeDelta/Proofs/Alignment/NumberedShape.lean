import Mathlib.Data.List.GetD
import TreeDelta.Proofs.EqualTrees

/-!
# Trees are told by their numbers

A numbering keeps the nodes of a tree in post-order and the first number of each subtree, and
nothing is lost by it. The last entry of a tree is its top, and the first number of the last branch
says how many nodes stand in front of that branch, so the entries can be cut into branches from
behind. Trees whose entries agree one by one, in their nodes and in their first numbers, have the
same shape.
-/

namespace TreeDelta.Numbering

variable {goes : Node → Node → Bool}

/-- A tree has as many entries as nodes. -/
theorem entries_length (first : Nat) (tree : SyntaxTree) :
    (entries first tree).length = tree.size := by
  rw [entries_eq [], List.length_map, List.length_zipIdx, Place.postorder_from_length]

/-- The same for a list of branches. -/
theorem entries_of_branches_length (first : Nat) (branches : List (String × SyntaxTree)) :
    (entriesOfBranches first branches).length = Tree.sizeBranches branches := by
  induction branches generalizing first with
  | nil => rfl
  | cons branch rest inductionHypothesis =>
    rw [entriesOfBranches, List.length_append, entries_length, inductionHypothesis,
      Tree.sizeBranches]

/-- The last entry of a tree is that of its top. -/
theorem entries_top (first : Nat) (tree : SyntaxTree) :
    entries first tree = entriesOfBranches first tree.branches ++ [(tree.label, first)] := by
  cases tree
  rfl

/-- The entries of the last branch come last, and begin behind the nodes of the others. -/
theorem entries_of_last_branch (first : Nat) (front : List (String × SyntaxTree))
    (branch : String × SyntaxTree) :
    entriesOfBranches first (front ++ [branch]) =
      entriesOfBranches first front ++ entries (first + Tree.sizeBranches front) branch.2 := by
  induction front generalizing first with
  | nil => simp [entriesOfBranches, Tree.sizeBranches]
  | cons other rest inductionHypothesis =>
    rw [List.cons_append, entriesOfBranches, entriesOfBranches, inductionHypothesis,
      Tree.sizeBranches, List.append_assoc, Nat.add_assoc]

/-- Branches correspond if all but the last ones do and the last ones do. -/
theorem corresponding_last {front otherFront : List (String × SyntaxTree)}
    {branch other : String × SyntaxTree}
    (fronts : Tree.correspondsBranches goes front otherFront = true)
    (last : Tree.corresponds goes branch.2 other.2 = true) :
    Tree.correspondsBranches goes (front ++ [branch]) (otherFront ++ [other]) = true := by
  induction front generalizing otherFront with
  | nil =>
    cases otherFront with
    | nil => simp [Tree.correspondsBranches, last]
    | cons first rest => simp [Tree.correspondsBranches] at fronts
  | cons first rest inductionHypothesis =>
    cases otherFront with
    | nil => simp [Tree.correspondsBranches] at fronts
    | cons otherFirst otherRest =>
      rw [Tree.correspondsBranches, Bool.and_eq_true] at fronts
      rw [List.cons_append, List.cons_append, Tree.correspondsBranches, Bool.and_eq_true]
      exact ⟨fronts.1, inductionHypothesis fronts.2⟩

/-- Related lists can be cut where equally many members are behind. -/
theorem related_parts {α β : Type} {Related : α → β → Prop} {front back : List α}
    {otherFront otherBack : List β}
    (related : List.Forall₂ Related (front ++ back) (otherFront ++ otherBack))
    (behind : back.length = otherBack.length) :
    List.Forall₂ Related front otherFront ∧ List.Forall₂ Related back otherBack := by
  obtain ⟨lengths, zipped⟩ := List.forall₂_iff_zip.mp related
  rw [List.length_append, List.length_append] at lengths
  have before : front.length = otherFront.length := by omega
  rw [List.zip_append before] at zipped
  exact ⟨List.forall₂_iff_zip.mpr ⟨before, fun member => zipped (List.mem_append_left _ member)⟩,
    List.forall₂_iff_zip.mpr ⟨behind, fun member => zipped (List.mem_append_right _ member)⟩⟩

/-- Branches whose entries agree correspond, if each of them corresponds to all trees whose entries
agree with its own. The branches are gone through from the last one to the first.

The number of the first node of a last branch says how many nodes stand in front of it. So entries
that agree can be cut at the same place on both sides, and the front is left to the induction. -/
theorem branches_of_entries {branches others : List (String × SyntaxTree)}
    (each : ∀ branch ∈ branches, ∀ first other,
      List.Forall₂ (EntriesGo goes) (entries first branch.2) (entries first other) →
        Tree.corresponds goes branch.2 other = true)
    (first : Nat) (related : List.Forall₂ (EntriesGo goes) (entriesOfBranches first branches)
      (entriesOfBranches first others)) :
    Tree.correspondsBranches goes branches others = true := by
  induction branches using List.reverseRecOn generalizing others with
  | nil =>
    rcases List.eq_nil_or_concat others with rfl | ⟨otherFront, other, rfl⟩
    · rfl
    · rw [List.concat_eq_append, entries_of_last_branch, entries_top] at related
      simp [entriesOfBranches] at related
  | append_singleton front branch inductionHypothesis =>
    rcases List.eq_nil_or_concat others with rfl | ⟨otherFront, other, rfl⟩
    · rw [entries_of_last_branch, entries_top] at related
      simp [entriesOfBranches] at related
    · rw [List.concat_eq_append] at related ⊢
      rw [entries_of_last_branch, entries_of_last_branch] at related
      -- The first numbers of the last branches tell that equally many nodes are in front of them.
      have begins : Tree.sizeBranches front = Tree.sizeBranches otherFront := by
        have tops := related
        rw [entries_top, entries_top, ← List.append_assoc, ← List.append_assoc] at tops
        have both := List.forall₂_cons.mp (related_parts tops rfl).2
        exact Nat.add_left_cancel both.1.2
      have lengths := related.length_eq
      simp only [List.length_append, entries_length, entries_of_branches_length] at lengths
      have behind : (entries (first + Tree.sizeBranches front) branch.2).length =
          (entries (first + Tree.sizeBranches otherFront) other.2).length := by
        rw [entries_length, entries_length]
        omega
      obtain ⟨fronts, last⟩ := related_parts related behind
      rw [← begins] at last
      have inFront : Tree.correspondsBranches goes front otherFront = true :=
        inductionHypothesis (fun inner member => each inner (List.mem_append_left _ member)) fronts
      exact corresponding_last inFront
        (each branch (List.mem_append_right _ List.mem_cons_self) _ _ last)

/-- Trees whose entries agree one by one correspond. -/
theorem corresponds_of_entries (tree : SyntaxTree) (first : Nat) (other : SyntaxTree)
    (related : List.Forall₂ (EntriesGo goes) (entries first tree) (entries first other)) :
    Tree.corresponds goes tree other = true := by
  induction tree using Tree.induct generalizing first other with
  | node label branches inductionHypothesis =>
    obtain ⟨otherLabel, otherBranches⟩ := other
    rw [entries, entries] at related
    obtain ⟨below, top⟩ := related_parts related rfl
    rw [Tree.corresponds, Bool.and_eq_true]
    exact ⟨(List.forall₂_cons.mp top).1.1, branches_of_entries inductionHypothesis first below⟩

/-- Trees correspond if they have as many nodes as each other, and numbers with nodes that go
together and with the same first numbers. -/
theorem corresponds_of_numbers {left right : SyntaxTree} (sizes : left.size = right.size)
    (numbers : ∀ index < left.size,
      goes ((ofTree left).node index) ((ofTree right).node index) = true ∧
        (ofTree left).first index = (ofTree right).first index) :
    Tree.corresponds goes left right = true := by
  refine corresponds_of_entries left 0 right (List.forall₂_iff_get.mpr ⟨?_, ?_⟩)
  · rw [entries_length, entries_length, sizes]
  · intro index inside otherInside
    have agree := numbers index (by rwa [entries_length] at inside)
    have entry := entry_of_tree left index
    have otherEntry := entry_of_tree right index
    rw [List.getD_eq_getElem _ _ inside] at entry
    rw [List.getD_eq_getElem _ _ otherInside] at otherEntry
    rw [EntriesGo, List.get_eq_getElem, List.get_eq_getElem, entry, otherEntry]
    exact agree

end TreeDelta.Numbering
