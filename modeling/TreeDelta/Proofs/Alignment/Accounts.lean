import Mathlib.Data.Finset.Dedup
import TreeDelta.Proofs.Alignment.WalkBack

/-!
# Accounting for every node

An outcome accounts for two forests if every node of either is kept, deleted or inserted exactly
once, and the pairs that are kept are a mapping between the forests. Each step of a walk adds to
what the walk accounts for: nodes at the end of a forest, the tops of two whole trees, or the last
subtrees of both forests, which are left to a walk of their own. The comparisons of costs play no
part in this, so it holds whatever they have shown.
-/

namespace TreeDelta.Alignment

variable {C : Type}

/-- The outcome treats every node of two forests exactly once, and what it keeps is a mapping
between them. -/
structure Accounts (problem : Problem C) (lefts rights : Finset Nat) (outcome : Outcome) :
    Prop where
  fits : Fits problem lefts rights outcome.kept.toFinset
  left_once : (↑(outcome.kept.map Prod.fst ++ outcome.deleted) : Multiset Nat) = lefts.val
  right_once : (↑(outcome.kept.map Prod.snd ++ outcome.inserted) : Multiset Nat) = rights.val

/-- Two outcomes are alike if they differ in the order of their parts only. -/
structure Outcome.Alike (first second : Outcome) : Prop where
  kept : first.kept.Perm second.kept
  deleted : first.deleted.Perm second.deleted
  inserted : first.inserted.Perm second.inserted

namespace Accounts

variable {problem : Problem C} {lefts rights : Finset Nat} {outcome : Outcome}

/-- The order of the parts of an outcome plays no part. -/
theorem of_alike {other : Outcome} (accounts : Accounts problem lefts rights outcome)
    (alike : other.Alike outcome) : Accounts problem lefts rights other where
  fits := by
    rw [List.toFinset_eq_of_perm _ _ alike.kept]
    exact accounts.fits
  left_once := by
    rw [← accounts.left_once, Multiset.coe_eq_coe]
    exact (alike.kept.map Prod.fst).append alike.deleted
  right_once := by
    rw [← accounts.right_once, Multiset.coe_eq_coe]
    exact (alike.kept.map Prod.snd).append alike.inserted

/-- The empty outcome accounts for forests without nodes. -/
theorem empty : Accounts problem ∅ ∅ Outcome.empty where
  fits := Fits.empty ∅ ∅
  left_once := rfl
  right_once := rfl

/-- Keeping the tops of two whole trees accounts for them. -/
theorem keep (accounts : Accounts problem lefts rights outcome) (i j : Nat)
    (leftOver : ∀ index ∈ lefts, problem.left.Over i index)
    (rightOver : ∀ index ∈ rights, problem.right.Over j index) :
    Accounts problem (insert i lefts) (insert j rights)
      { outcome with kept := (i, j) :: outcome.kept } where
  fits := by
    rw [List.toFinset_cons]
    exact accounts.fits.insert_top i j leftOver rightOver
  left_once := by
    have new : i ∉ lefts := fun member => Nat.lt_irrefl i (leftOver i member).2
    rw [Finset.insert_val_of_notMem new, ← accounts.left_once]
    rfl
  right_once := by
    have new : j ∉ rights := fun member => Nat.lt_irrefl j (rightOver j member).2
    rw [Finset.insert_val_of_notMem new, ← accounts.right_once]
    rfl

/-- Deleting a node of the left tree accounts for it. -/
theorem delete (accounts : Accounts problem lefts rights outcome) (i : Nat) (new : i ∉ lefts) :
    Accounts problem (insert i lefts) rights
      { outcome with deleted := i :: outcome.deleted } where
  fits := accounts.fits.mono (Finset.subset_insert i lefts) subset_rfl
  left_once := by
    rw [Finset.insert_val_of_notMem new, ← accounts.left_once, Multiset.cons_coe,
      Multiset.coe_eq_coe]
    exact List.perm_middle
  right_once := accounts.right_once

/-- Inserting a node of the right tree accounts for it. -/
theorem insert (accounts : Accounts problem lefts rights outcome) (j : Nat) (new : j ∉ rights) :
    Accounts problem lefts (insert j rights)
      { outcome with inserted := j :: outcome.inserted } where
  fits := accounts.fits.mono subset_rfl (Finset.subset_insert j rights)
  left_once := accounts.left_once
  right_once := by
    rw [Finset.insert_val_of_notMem new, ← accounts.right_once, Multiset.cons_coe,
      Multiset.coe_eq_coe]
    exact List.perm_middle

/-- Two outcomes together account for forests that stand one after the other. -/
theorem append {moreLefts moreRights : Finset Nat} {further : Outcome}
    (accounts : Accounts problem lefts rights outcome)
    (furtherAccounts : Accounts problem moreLefts moreRights further)
    (leftPrecedes : problem.left.Precedes lefts moreLefts)
    (rightPrecedes : problem.right.Precedes rights moreRights) :
    Accounts problem (lefts ∪ moreLefts) (rights ∪ moreRights) (outcome.append further) where
  fits := by
    rw [Outcome.append, List.toFinset_append]
    exact accounts.fits.union furtherAccounts.fits leftPrecedes rightPrecedes
  left_once := by
    have disjoint : Disjoint lefts moreLefts :=
      Finset.disjoint_left.mpr fun i member other =>
        Nat.lt_irrefl i (leftPrecedes i member i other).2
    rw [← Finset.disjUnion_eq_union lefts moreLefts disjoint, Finset.disjUnion_val,
      ← accounts.left_once, ← furtherAccounts.left_once, Multiset.coe_add, Multiset.coe_eq_coe]
    simp only [Outcome.append, List.map_append, List.append_assoc]
    exact (List.perm_append_comm_assoc _ _ _).append_left _
  right_once := by
    have disjoint : Disjoint rights moreRights :=
      Finset.disjoint_left.mpr fun j member other =>
        Nat.lt_irrefl j (rightPrecedes j member j other).2
    rw [← Finset.disjUnion_eq_union rights moreRights disjoint, Finset.disjUnion_val,
      ← accounts.right_once, ← furtherAccounts.right_once, Multiset.coe_add, Multiset.coe_eq_coe]
    simp only [Outcome.append, List.map_append, List.append_assoc]
    exact (List.perm_append_comm_assoc _ _ _).append_left _

end Accounts

/-- A walk together with the outcomes for the pairs of subtrees that it has left. -/
def Walk.complete (walk : Walk) (further : List Outcome) : Outcome :=
  further.foldl Outcome.append walk.outcome

/-- A complete walk consists of the parts of all its outcomes. -/
theorem complete_parts (walk : Walk) (further : List Outcome) :
    walk.complete further =
      ⟨walk.outcome.kept ++ further.flatMap Outcome.kept,
        walk.outcome.deleted ++ further.flatMap Outcome.deleted,
        walk.outcome.inserted ++ further.flatMap Outcome.inserted⟩ := by
  obtain ⟨outcome, pending⟩ := walk
  induction further generalizing outcome with
  | nil => simp [Walk.complete]
  | cons first rest inductionHypothesis =>
    refine (inductionHypothesis (outcome.append first)).trans ?_
    simp [Outcome.append]

/-- The outcome for a pair of subtrees that was left can be put last. -/
theorem complete_postpone (walk : Walk) (pair : Nat × Nat) (first : Outcome)
    (rest : List Outcome) :
    ((walk.postpone pair).complete (first :: rest)).Alike ((walk.complete rest).append first) := by
  have rotate {α : Type} (front middle back : List α) :
      (front ++ (middle ++ back)).Perm (front ++ back ++ middle) := by
    rw [List.append_assoc]
    exact List.perm_append_comm.append_left front
  simp only [complete_parts, Walk.postpone, Outcome.append, List.flatMap_cons]
  exact ⟨rotate _ _ _, rotate _ _ _, rotate _ _ _⟩

/-- The outcome accounts for the subtrees of a pair of nodes. -/
def AccountsForPair (problem : Problem C) (pair : Nat × Nat) (outcome : Outcome) : Prop :=
  Accounts problem (Finset.Ico (problem.left.first pair.1) (pair.1 + 1))
    (Finset.Ico (problem.right.first pair.2) (pair.2 + 1)) outcome

/-- The walk accounts for two forests, as soon as there are outcomes for the pairs of subtrees that
it has left. -/
def WalkAccounts (problem : Problem C) (lefts rights : Finset Nat) (walk : Walk) : Prop :=
  ∀ further, List.Forall₂ (AccountsForPair problem) walk.pending further →
    Accounts problem lefts rights (walk.complete further)

namespace WalkAccounts

variable {problem : Problem C} {lefts rights : Finset Nat} {walk : Walk}

/-- The walk that has passed no node accounts for forests without nodes. -/
theorem start : WalkAccounts problem ∅ ∅ Walk.start := by
  intro further related
  obtain rfl := List.forall₂_nil_left_iff.mp related
  exact Accounts.empty

/-- A walk that also keeps the tops of two whole trees accounts for them. -/
theorem keep (accounts : WalkAccounts problem lefts rights walk) (i j : Nat)
    (leftOver : ∀ index ∈ lefts, problem.left.Over i index)
    (rightOver : ∀ index ∈ rights, problem.right.Over j index) :
    WalkAccounts problem (insert i lefts) (insert j rights) (walk.keep (i, j)) := by
  intro further related
  have kept := (accounts further related).keep i j leftOver rightOver
  rw [complete_parts] at kept ⊢
  exact kept

/-- A walk that also deletes a node accounts for it. -/
theorem delete (accounts : WalkAccounts problem lefts rights walk) (i : Nat) (new : i ∉ lefts) :
    WalkAccounts problem (insert i lefts) rights (walk.delete i) := by
  intro further related
  have deleted := (accounts further related).delete i new
  rw [complete_parts] at deleted ⊢
  exact deleted

/-- A walk that also inserts a node accounts for it. -/
theorem insert (accounts : WalkAccounts problem lefts rights walk) (j : Nat) (new : j ∉ rights) :
    WalkAccounts problem lefts (insert j rights) (walk.insert j) := by
  intro further related
  have inserted := (accounts further related).insert j new
  rw [complete_parts] at inserted ⊢
  exact inserted

/-- A walk that also leaves two subtrees accounts for them, because their outcome does. -/
theorem postpone (accounts : WalkAccounts problem lefts rights walk) (pair : Nat × Nat)
    (leftPrecedes : problem.left.Precedes lefts
      (Finset.Ico (problem.left.first pair.1) (pair.1 + 1)))
    (rightPrecedes : problem.right.Precedes rights
      (Finset.Ico (problem.right.first pair.2) (pair.2 + 1))) :
    WalkAccounts problem (lefts ∪ Finset.Ico (problem.left.first pair.1) (pair.1 + 1))
      (rights ∪ Finset.Ico (problem.right.first pair.2) (pair.2 + 1)) (walk.postpone pair) := by
  intro further related
  obtain ⟨first, rest, tree, others, rfl⟩ := List.forall₂_cons_left_iff.mp related
  have both := (accounts rest others).append tree leftPrecedes rightPrecedes
  exact both.of_alike (complete_postpone walk pair first rest)

end WalkAccounts

end TreeDelta.Alignment
