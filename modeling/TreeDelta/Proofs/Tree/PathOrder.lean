import Mathlib.Data.List.Lex
import TreeDelta.Proofs.Tree.Around
import TreeDelta.Proofs.Tree.TopDown

/-!
# The order of paths

Paths are ordered like words in a dictionary: a path comes before those that it leads on to, and of
two paths that part, the one with the lesser index comes first. Pre-order follows this order. It
lists a place before what is below it, and the children of a place by increasing index, so the paths
of the listed places increase from each to the next.

The indices of a path may be kept in words of a fixed width. This changes nothing as long as no
index is too great: what is kept is the index itself, and the order of the paths is the same.
-/

namespace TreeDelta

/-- A path comes before those that it leads on to. -/
theorem Path.lt_of_extended {stem path : Path} {index : Nat} (leading : stem ++ [index] <+: path) :
    stem < path := by
  obtain ⟨further, rfl⟩ := leading
  simpa using List.Lex.append_left (· < ·)
    (List.Lex.nil : List.Lex (· < ·) [] (index :: further)) stem

/-- Of two paths that part, the one with the lesser index comes first. -/
theorem Path.lt_of_parted {stem early late : Path} {first second : Nat} (before : first < second)
    (throughFirst : stem ++ [first] <+: early) (throughSecond : stem ++ [second] <+: late) :
    early < late := by
  obtain ⟨earlyRest, rfl⟩ := throughFirst
  obtain ⟨lateRest, rfl⟩ := throughSecond
  simpa using List.Lex.append_left (· < ·)
    (List.Lex.rel before : List.Lex (· < ·) (first :: earlyRest) (second :: lateRest)) stem

namespace Place

variable {α : Type}

/-- The paths of the places below a child lead through it. -/
theorem path_through {place lower : Place α} {index : Nat} {child : Tree α}
    (listed : lower ∈ (place.down index child).preorder) :
    place.path ++ [index] <+: lower.path := by
  have leading := path_of_listed listed
  rwa [down, path_step] at leading

/-- The children of a place are the places of its branches. -/
theorem child_at_index {place : Place α} {index : Nat} (bound : index < place.children.length) :
    ∃ child, place.tree.children[index]? = some child ∧
      place.children[index] = place.down index child := by
  simp only [children, List.length_mapIdx] at bound
  exact ⟨_, List.getElem?_eq_getElem bound, by simp [children]⟩

/-- The paths of the places of a subtree in pre-order increase. -/
theorem preorder_paths_increase (place : Place α) :
    place.preorder.Pairwise fun early late => early.path < late.path := by
  induction place using induct_down with
  | up place inductionHypothesis =>
    rw [preorder_children, List.pairwise_cons, List.pairwise_flatMap]
    refine ⟨fun lower below => ?_, fun upper member => ?_, ?_⟩
    · obtain ⟨upper, member, inside⟩ := List.mem_flatMap.mp below
      obtain ⟨index, bound, rfl⟩ := List.mem_iff_getElem.mp member
      obtain ⟨tree, -, here⟩ := child_at_index bound
      exact Path.lt_of_extended (path_through (here ▸ inside))
    · obtain ⟨index, bound, rfl⟩ := List.mem_iff_getElem.mp member
      obtain ⟨tree, branch, here⟩ := child_at_index bound
      exact here ▸ inductionHypothesis index tree branch
    · refine List.pairwise_iff_getElem.mpr fun first second firstBound secondBound before => ?_
      intro early earlyInside late lateInside
      obtain ⟨_, -, firstHere⟩ := child_at_index firstBound
      obtain ⟨_, -, secondHere⟩ := child_at_index secondBound
      exact Path.lt_of_parted before (path_through (firstHere ▸ earlyInside))
        (path_through (secondHere ▸ lateInside))

/-- What a path leads to has that path. -/
theorem path_of_follow {whole : Tree α} {path : Path} {place : Place α}
    (followed : (top whole).follow? path = some place) : place.path = path := by
  induction path using List.reverseRecOn generalizing place with
  | nil =>
    obtain rfl : top whole = place := Option.some.inj followed
    rfl
  | append_singleton path index inductionHypothesis =>
    rw [follow_step] at followed
    obtain ⟨parent, parentFollowed, found⟩ := Option.bind_eq_some_iff.mp followed
    obtain ⟨child, -, rfl⟩ := Option.map_eq_some_iff.mp found
    rw [down, path_step, ← inductionHypothesis parentFollowed]

/-- The way up from a place leads through as many places as stand above it, and the place. -/
theorem ancestors_length (place : Place α) : place.ancestors.length = place.depth + 1 := by
  obtain ⟨tree, above⟩ := place
  induction above generalizing tree with
  | nil => rfl
  | cons up further inductionHypothesis =>
    have upwards : (ancestorsFrom up.tree further).length = further.length + 1 :=
      inductionHypothesis up.tree
    simp [ancestors, ancestorsFrom, depth, upwards]

/-- The indices on the way up from a place are those of the places on it. -/
theorem ancestors_indices (place : Place α) :
    place.ancestors.filterMap index? = place.above.map Step.index := by
  obtain ⟨tree, above⟩ := place
  induction above generalizing tree with
  | nil => rfl
  | cons up further inductionHypothesis =>
    have upwards : (ancestorsFrom up.tree further).filterMap index? = further.map Step.index :=
      inductionHypothesis up.tree
    simp [ancestors, ancestorsFrom, index?, upwards]

end Place

/-- Indices that fit into words are kept as they are. -/
theorem Path.words_kept {path : Path} (narrow : ∀ index ∈ path, index < UInt32.size) :
    (path.map Nat.toUInt32).map UInt32.toNat = path := by
  rw [List.map_map]
  refine (List.map_congr_left fun index member => ?_).trans (List.map_id path)
  exact UInt32.toNat_ofNat_of_lt' (narrow index member)

/-- Paths whose indices fit into words are ordered like their words. -/
theorem Path.words_lt {early late : Path} (earlyNarrow : ∀ index ∈ early, index < UInt32.size)
    (lateNarrow : ∀ index ∈ late, index < UInt32.size) (before : early < late) :
    early.map Nat.toUInt32 < late.map Nat.toUInt32 := by
  induction before with
  | nil => exact .nil
  | rel smaller =>
    exact .rel ((UInt32.ofNat_lt_iff_lt (earlyNarrow _ (by simp)) (lateNarrow _ (by simp))).mpr
      smaller)
  | cons _ inductionHypothesis =>
    exact .cons (inductionHypothesis (fun _ member => earlyNarrow _ (by simp [member]))
      fun _ member => lateNarrow _ (by simp [member]))

end TreeDelta
