import Mathlib.Tactic.Common
import TreeDelta.LineDiff.Compaction
import TreeDelta.LineDiff.Matching

/-!
# Scripts relate the sequences they were made from

The two sequences can be read off the script of a matching, whatever point the search for a middle
snake returns: what is kept stands in both, and the parts between are matched, deleted or inserted.
Compaction moves runs past each other and over equal items. Every single move leaves both sequences
as they are, so the compacted script relates the same two. No run of a script deletes or inserts
nothing, before compaction and after it. A sequence compared with itself is kept as a whole.
-/

namespace TreeDelta.LineDiff

variable {α : Type}

/-- Whether a run deletes or inserts something, if it is there to do so. -/
def Run.Effective : Run α → Prop
  | .equal _ => True
  | .delete items => items ≠ []
  | .insert items => items ≠ []

/-- A script turns the old sequence into the new one, and none of its runs does so by nothing. -/
structure Relates (script : List (Run α)) (old new : List α) : Prop where
  old_eq : oldOf script = old
  new_eq : newOf script = new
  effective : ∀ run ∈ script, run.Effective

/-- The script without runs turns the empty sequence into itself. -/
theorem relates_nil : Relates ([] : List (Run α)) [] [] := ⟨rfl, rfl, by simp⟩

/-- Two scripts, one behind the other, turn the two old sequences into the two new ones. -/
theorem Relates.append {first second : List (Run α)} {old new oldRest newRest : List α}
    (relates : Relates first old new) (rest : Relates second oldRest newRest) :
    Relates (first ++ second) (old ++ oldRest) (new ++ newRest) := by
  refine ⟨by simp [relates.old_eq, rest.old_eq], by simp [relates.new_eq, rest.new_eq], ?_⟩
  intro run present
  rcases List.mem_append.mp present with here | there
  · exact relates.effective run here
  · exact rest.effective run there

/-- A script that keeps everything turns a sequence into itself. -/
theorem equal_relates (items : List α) : Relates (equalRun items) items items := by
  cases items with
  | nil => exact relates_nil
  | cons first rest => exact ⟨by simp [equalRun, Run.old], by simp [equalRun, Run.new],
      by simp [equalRun, Run.Effective]⟩

/-- A script that deletes everything turns a sequence into the empty one. -/
theorem delete_relates (items : List α) : Relates (deleteRun items) items [] := by
  cases items with
  | nil => exact relates_nil
  | cons first rest => exact ⟨by simp [deleteRun, Run.old], by simp [deleteRun, Run.new],
      by simp [deleteRun, Run.Effective]⟩

/-- A script that only inserts turns the empty sequence into what it inserts. -/
theorem insert_relates (items : List α) : Relates (insertRun items) [] items := by
  cases items with
  | nil => exact relates_nil
  | cons first rest => exact ⟨by simp [insertRun, Run.old], by simp [insertRun, Run.new],
      by simp [insertRun, Run.Effective]⟩

/-- Deleting one sequence and inserting another turns the one into the other. -/
theorem replace_relates (old new : List α) :
    Relates (deleteRun old ++ insertRun new) old new := by
  simpa using (delete_relates old).append (insert_relates new)

section Matching

/-! ## Matching -/

/-- Two sequences fall into a common start, two middles and a common end, so a script for the
middles becomes one for the whole. -/
theorem Relates.between {old new : List α} {middle : List (Run α)} (start stop : Nat)
    (starts : new.take start = old.take start)
    (stops : (new.drop start).drop ((new.drop start).length - stop)
      = (old.drop start).drop ((old.drop start).length - stop))
    (relates : Relates middle
      ((old.drop start).take ((old.drop start).length - stop))
      ((new.drop start).take ((new.drop start).length - stop))) :
    Relates (equalRun (old.take start) ++ middle
      ++ equalRun ((old.drop start).drop ((old.drop start).length - stop))) old new := by
  have parted := ((equal_relates (old.take start)).append relates).append
    (equal_relates ((old.drop start).drop ((old.drop start).length - stop)))
  have oldWhole : old.take start ++ (old.drop start).take ((old.drop start).length - stop)
      ++ (old.drop start).drop ((old.drop start).length - stop) = old := by
    rw [List.append_assoc, List.take_append_drop, List.take_append_drop]
  have newWhole : old.take start ++ (new.drop start).take ((new.drop start).length - stop)
      ++ (old.drop start).drop ((old.drop start).length - stop) = new := by
    rw [← starts, ← stops, List.append_assoc, List.take_append_drop, List.take_append_drop]
  rwa [oldWhole, newWhole] at parted

variable [DecidableEq α]

/-- Two sequences begin with the same items, as many as their common start is counted. -/
theorem take_common (old new : List α) :
    new.take (commonLength old new) = old.take (commonLength old new) := by
  induction old, new using commonLength.induct with
  | case1 item firstRest secondRest inductionHypothesis => simp [commonLength, inductionHypothesis]
  | case2 first firstRest second secondRest differ => simp [commonLength, differ]
  | case3 old new empty =>
    cases old with
    | nil => simp [commonLength]
    | cons first firstRest =>
      cases new with
      | nil => simp [commonLength]
      | cons second secondRest => exact (empty first firstRest second secondRest rfl rfl).elim

/-- Two sequences end with the same items, as many as their common end is counted. -/
theorem drop_common_end (old new : List α) :
    new.drop (new.length - commonEndLength old new)
      = old.drop (old.length - commonEndLength old new) := by
  have shared := congrArg List.reverse (take_common old.reverse new.reverse)
  simpa [commonEndLength, List.take_reverse] using shared

/-- A matching turns the old sequence into the new one. -/
theorem matching_relates (old new : List α) : Relates (matching old new) old new := by
  induction old, new using matching.induct with
  | case1 old new start oldRest newRest stop oldMiddle newMiddle begun ended =>
    rw [matching]
    apply Relates.between start stop (take_common old new) (drop_common_end oldRest newRest)
    change Relates _ oldMiddle newMiddle
    split
    next gone =>
      have nothing : oldMiddle = [] := List.isEmpty_iff.mp gone
      rw [nothing]
      exact insert_relates newMiddle
    next =>
      split
      next gone =>
        have nothing : newMiddle = [] := List.isEmpty_iff.mp gone
        rw [nothing]
        exact delete_relates oldMiddle
      next =>
        split
        next x y _ =>
          split
          next within =>
            have parted := (begun x y within).append (ended x y within)
            rwa [List.take_append_drop, List.take_append_drop] at parted
          next => exact replace_relates oldMiddle newMiddle
        next => exact replace_relates oldMiddle newMiddle

/-- The common start of a sequence with itself is the whole of it. -/
theorem common_length_self (items : List α) : commonLength items items = items.length := by
  induction items with
  | nil => rfl
  | cons first rest inductionHypothesis => simp [commonLength, inductionHypothesis]

/-- A sequence is kept as a whole when it is compared with itself. -/
theorem matching_self (items : List α) : matching items items = equalRun items := by
  rw [matching]
  simp [common_length_self, commonStart, equalRun, insertRun]

end Matching

section Compaction

/-! ## Compaction -/

/-- Two scripts say the same: they have the same old and the same new sequence, and if the runs of
the first are all effective, so are those of the second. -/
structure SameEffect (script moved : List (Run α)) : Prop where
  old_eq : oldOf moved = oldOf script
  new_eq : newOf moved = newOf script
  effective : (∀ run ∈ script, run.Effective) → ∀ run ∈ moved, run.Effective

/-- A script says the same as itself. -/
theorem SameEffect.refl (script : List (Run α)) : SameEffect script script := ⟨rfl, rfl, id⟩

/-- One move after another says the same if each of them does. -/
theorem SameEffect.trans {first second third : List (Run α)} (once : SameEffect first second)
    (again : SameEffect second third) : SameEffect first third :=
  ⟨again.old_eq.trans once.old_eq, again.new_eq.trans once.new_eq,
    fun all => again.effective (once.effective all)⟩

/-- A move behind a part of a script is a move of the whole. -/
theorem SameEffect.behind {script moved : List (Run α)} (same : SameEffect script moved)
    (before : List (Run α)) : SameEffect (before ++ script) (before ++ moved) := by
  refine ⟨by simp [same.old_eq], by simp [same.new_eq], ?_⟩
  intro all
  rw [List.forall_mem_append] at all ⊢
  exact ⟨all.1, same.effective all.2⟩

/-- A script that says the same relates the same two sequences. -/
theorem Relates.moved {script moved : List (Run α)} {old new : List α}
    (relates : Relates script old new) (same : SameEffect script moved) :
    Relates moved old new :=
  ⟨same.old_eq.trans relates.old_eq, same.new_eq.trans relates.new_eq,
    same.effective relates.effective⟩

/-- An equal run is there to keep items, so nothing is asked of it. -/
@[simp] theorem effective_equal (items : List α) : (Run.equal items).Effective := trivial

/-- A deleted run is effective if it has items. -/
@[simp] theorem effective_delete (items : List α) : (Run.delete items).Effective ↔ items ≠ [] :=
  Iff.rfl

/-- An inserted run is effective if it has items. -/
@[simp] theorem effective_insert (items : List α) : (Run.insert items).Effective ↔ items ≠ [] :=
  Iff.rfl

/-- Equal items put in front of runs stand in front of their old sequence. -/
@[simp] theorem oldOf_growFirst (items : List α) (runs : List (Run α)) :
    oldOf (growFirst items runs) = items ++ oldOf runs := by
  unfold growFirst
  split
  next gone => simp [List.isEmpty_iff.mp gone]
  next => split <;> simp [Run.old]

/-- Equal items put in front of runs stand in front of their new sequence. -/
@[simp] theorem newOf_growFirst (items : List α) (runs : List (Run α)) :
    newOf (growFirst items runs) = items ++ newOf runs := by
  unfold growFirst
  split
  next gone => simp [List.isEmpty_iff.mp gone]
  next => split <;> simp [Run.new]

/-- Equal items put in front of runs make none of them more or less effective. -/
@[simp] theorem growFirst_effective (items : List α) (runs : List (Run α)) :
    (∀ run ∈ growFirst items runs, run.Effective) ↔ ∀ run ∈ runs, run.Effective := by
  unfold growFirst
  split
  next => rfl
  next => split <;> simp

/-- Equal items put behind the runs before a place stand behind their old sequence. These runs are
held nearest first. -/
@[simp] theorem oldOf_growLast (items : List α) (runs : List (Run α)) :
    oldOf (growLast items runs).reverse = oldOf runs.reverse ++ items := by
  unfold growLast
  split
  next gone => simp [List.isEmpty_iff.mp gone]
  next => split <;> simp [Run.old]

/-- Equal items put behind the runs before a place stand behind their new sequence. -/
@[simp] theorem newOf_growLast (items : List α) (runs : List (Run α)) :
    newOf (growLast items runs).reverse = newOf runs.reverse ++ items := by
  unfold growLast
  split
  next gone => simp [List.isEmpty_iff.mp gone]
  next => split <;> simp [Run.new]

/-- Equal items put behind the runs before a place make none of them more or less effective. -/
@[simp] theorem growLast_effective (items : List α) (runs : List (Run α)) :
    (∀ run ∈ growLast items runs, run.Effective) ↔ ∀ run ∈ runs, run.Effective := by
  unfold growLast
  split
  next => rfl
  next => split <;> simp

/-! ### Single moves -/

/-- An equal run without items can be dropped. -/
theorem drop_empty_same (runs : List (Run α)) : SameEffect (.equal [] :: runs) runs :=
  ⟨by simp [Run.old], by simp [Run.new], by simp⟩

/-- An inserted run can pass the deleted run in front of it. -/
theorem insert_over_delete_same (deleted inserted : List α) (runs : List (Run α)) :
    SameEffect (.delete deleted :: .insert inserted :: runs)
      (.insert inserted :: .delete deleted :: runs) :=
  ⟨by simp [Run.old], by simp [Run.new], by simp +contextual⟩

/-- A deleted run can pass the inserted run in front of it. -/
theorem delete_over_insert_same (deleted inserted : List α) (runs : List (Run α)) :
    SameEffect (.insert inserted :: .delete deleted :: runs)
      (.delete deleted :: .insert inserted :: runs) :=
  ⟨by simp [Run.old], by simp [Run.new], by simp +contextual⟩

/-- Two neighbouring inserted runs can be made one. -/
theorem merge_inserts_same (first second : List α) (runs : List (Run α)) :
    SameEffect (.insert first :: .insert second :: runs) (.insert (first ++ second) :: runs) :=
  ⟨by simp [Run.old], by simp [Run.new], by simp +contextual⟩

/-- Two neighbouring deleted runs can be made one. -/
theorem merge_deletes_same (first second : List α) (runs : List (Run α)) :
    SameEffect (.delete first :: .delete second :: runs) (.delete (first ++ second) :: runs) :=
  ⟨by simp [Run.old], by simp [Run.new], by simp +contextual⟩

/-! ### Deleted runs -/

/-- The script of which a run is moving. -/
def Moving.script (moving : Moving α) (run : List α → Run α) : List (Run α) :=
  moving.before.reverse ++ run moving.items :: moving.behind

/-- A deleted run that moves up leaves what the script says.

The induction follows the runs that it meets, the nearest first. An equal run with items ends the
way. Every other one is dropped, joined or passed by one of the single moves, and the rest of the
way is the induction hypothesis. -/
theorem deleteUp_same (before : List (Run α)) (items : List α) (behind : List (Run α)) :
    SameEffect (before.reverse ++ .delete items :: behind)
      ((deleteUp before items behind).script .delete) := by
  induction before, items, behind using deleteUp.induct with
  | case1 items behind => exact .refl _
  | case2 before items behind inductionHypothesis =>
    rw [deleteUp, List.reverse_cons, List.append_assoc]
    have step := drop_empty_same (.delete items :: behind)
    exact (step.behind before.reverse).trans inductionHypothesis
  | case3 present before items behind remains =>
    rw [deleteUp]
    · exact .refl _
    · exact remains
  | case4 deleted before items behind inductionHypothesis =>
    rw [deleteUp, List.reverse_cons, List.append_assoc]
    have step := merge_deletes_same deleted items behind
    exact (step.behind before.reverse).trans inductionHypothesis
  | case5 inserted before items behind inductionHypothesis =>
    rw [deleteUp, List.reverse_cons, List.append_assoc]
    have step := delete_over_insert_same items inserted behind
    exact (step.behind before.reverse).trans inductionHypothesis

/-- A deleted run that moves down leaves what the script says. The runs that it meets are now those
behind it. -/
theorem deleteDown_same (before : List (Run α)) (items : List α) (behind : List (Run α)) :
    SameEffect (before.reverse ++ .delete items :: behind)
      ((deleteDown before items behind).script .delete) := by
  induction before, items, behind using deleteDown.induct with
  | case1 before items => exact .refl _
  | case2 before items behind inductionHypothesis =>
    rw [deleteDown]
    have step := (drop_empty_same behind).behind [.delete items]
    exact (step.behind before.reverse).trans inductionHypothesis
  | case3 before items present behind remains =>
    rw [deleteDown]
    · exact .refl _
    · exact remains
  | case4 before items deleted behind inductionHypothesis =>
    rw [deleteDown]
    have step := merge_deletes_same items deleted behind
    exact (step.behind before.reverse).trans inductionHypothesis
  | case5 before items inserted behind inductionHypothesis =>
    rw [List.reverse_cons, List.append_assoc] at inductionHypothesis
    rw [deleteDown]
    have step := insert_over_delete_same items inserted behind
    exact (step.behind before.reverse).trans inductionHypothesis

/-- Settling the deleted runs leaves what the script says, whatever the number of rounds. -/
theorem settleDeletes_same (rounds : Nat) (before behind : List (Run α)) :
    SameEffect (before.reverse ++ behind) (settleDeletes rounds before behind) := by
  induction rounds, before, behind using settleDeletes.induct with
  | case1 before behind => exact .refl _
  | case2 rounds before => simpa [settleDeletes] using SameEffect.refl before.reverse
  | case3 rounds before items behind up settled inductionHypothesis =>
    rw [settleDeletes]
    have moved := (deleteUp_same before items behind).trans
      (deleteDown_same up.before up.items up.behind)
    rw [List.reverse_cons, List.append_assoc] at inductionHypothesis
    exact moved.trans inductionHypothesis
  | case4 rounds before run behind other inductionHypothesis =>
    rw [settleDeletes]
    · simpa using inductionHypothesis
    · exact other

/-! ### Inserted runs -/

variable [DecidableEq α]

/-- Sliding up leaves the equal items and the new sequence as they were, and every inserted item
stays inserted or gives its place to an equal one. -/
theorem slideUp_keeps {rest inserted passed left slid behind : List α}
    (slides : slideUp rest inserted passed = (left, slid, behind)) :
    left.reverse ++ behind = rest.reverse ++ passed
      ∧ left.reverse ++ (slid ++ behind) = rest.reverse ++ (inserted ++ passed)
      ∧ slid.length = inserted.length := by
  induction rest generalizing inserted passed with
  | nil => simp_all [slideUp]
  | cons item rest inductionHypothesis =>
    rw [slideUp] at slides
    split at slides
    next last =>
      obtain ⟨front, rfl⟩ := List.getLast?_eq_some_iff.mp last
      obtain ⟨kept, whole, size⟩ := inductionHypothesis slides
      exact ⟨by simpa using kept, by simpa using whole, by simpa using size⟩
    next =>
      obtain ⟨rfl, rfl, rfl⟩ : item :: rest = left ∧ inserted = slid ∧ passed = behind := by
        simpa using slides
      simp

/-- Sliding down leaves the equal items and the new sequence as they were, and as many items stay
inserted. -/
theorem slideDown_keeps {rest inserted passed left slid before : List α}
    (slides : slideDown rest inserted passed = (left, slid, before)) :
    before.reverse ++ left = passed.reverse ++ rest
      ∧ before.reverse ++ (slid ++ left) = passed.reverse ++ (inserted ++ rest)
      ∧ slid.length = inserted.length := by
  induction rest generalizing inserted passed with
  | nil => simp_all [slideDown]
  | cons item rest inductionHypothesis =>
    rw [slideDown] at slides
    split at slides
    next first =>
      obtain ⟨back, rfl⟩ := List.head?_eq_some_iff.mp first
      obtain ⟨kept, whole, size⟩ := inductionHypothesis slides
      exact ⟨by simpa using kept, by simpa using whole, by simpa using size⟩
    next =>
      obtain ⟨rfl, rfl, rfl⟩ : item :: rest = left ∧ inserted = slid ∧ passed = before := by
        simpa using slides
      simp

/-- An inserted run that slides up over the equal run before it leaves what the script says. The
equal items that it has passed stand behind it. -/
theorem slide_up_same {present items left slid passed : List α}
    (slides : slideUp present.reverse items [] = (left, slid, passed)) (runs : List (Run α)) :
    SameEffect (.equal present :: .insert items :: runs)
      (.equal left.reverse :: .insert slid :: growFirst passed runs) := by
  obtain ⟨kept, whole, size⟩ := slideUp_keeps slides
  have still : slid = [] ↔ items = [] := by
    rw [← List.length_eq_zero_iff, ← List.length_eq_zero_iff, size]
  refine ⟨?_, ?_, by simp [still]⟩
  · simpa [Run.old] using congrArg (· ++ oldOf runs) kept
  · simpa [Run.new] using congrArg (· ++ newOf runs) whole

/-- An inserted run that slides down over the equal run behind it leaves what the script says. The
equal items that it has passed stand before it. -/
theorem slide_down_same {present items left slid passed : List α}
    (slides : slideDown present items [] = (left, slid, passed)) (before runs : List (Run α)) :
    SameEffect (before.reverse ++ .insert items :: .equal present :: runs)
      ((growLast passed.reverse before).reverse ++ .insert slid :: .equal left :: runs) := by
  obtain ⟨kept, whole, size⟩ := slideDown_keeps slides
  have still : slid = [] ↔ items = [] := by
    rw [← List.length_eq_zero_iff, ← List.length_eq_zero_iff, size]
  refine ⟨?_, ?_, ?_⟩
  · simpa [Run.old] using congrArg (oldOf before.reverse ++ · ++ oldOf runs) kept
  · simpa [Run.new] using congrArg (newOf before.reverse ++ · ++ newOf runs) whole
  · simp only [List.forall_mem_append, List.mem_reverse, growLast_effective]
    simp [still]

/-- An inserted run that moves up leaves what the script says.

Over an equal run it slides as far as it can. If it gets through, the equal run is empty, is
dropped, and the way goes on by the induction hypothesis; otherwise it ends there. A deleted run is
passed, an inserted one joined. -/
theorem insertUp_same (before : List (Run α)) (items : List α) (behind : List (Run α)) :
    SameEffect (before.reverse ++ .insert items :: behind)
      ((insertUp before items behind).script .insert) := by
  induction before, items, behind using insertUp.induct with
  | case1 items behind => exact .refl _
  | case2 present before items behind slid passed slides inductionHypothesis =>
    rw [insertUp, slides, List.reverse_cons, List.append_assoc]
    have step := (slide_up_same slides behind).trans (drop_empty_same _)
    exact (step.behind before.reverse).trans inductionHypothesis
  | case3 present before items behind left slid passed remains slides =>
    cases left with
    | nil => exact (remains rfl).elim
    | cons item left =>
      rw [insertUp, slides, List.reverse_cons, List.append_assoc]
      have step := (slide_up_same slides behind).behind before.reverse
      simpa [Moving.script] using step
  | case4 deleted before items behind inductionHypothesis =>
    rw [insertUp, List.reverse_cons, List.append_assoc]
    have step := insert_over_delete_same deleted items behind
    exact (step.behind before.reverse).trans inductionHypothesis
  | case5 inserted before items behind inductionHypothesis =>
    rw [insertUp, List.reverse_cons, List.append_assoc]
    have step := merge_inserts_same inserted items behind
    exact (step.behind before.reverse).trans inductionHypothesis

/-- An inserted run that moves down leaves what the script says, for the same reasons as on its way
up. -/
theorem insertDown_same (before : List (Run α)) (items : List α) (behind : List (Run α)) :
    SameEffect (before.reverse ++ .insert items :: behind)
      ((insertDown before items behind).script .insert) := by
  induction before, items, behind using insertDown.induct with
  | case1 before items => exact .refl _
  | case2 before items present behind slid passed slides inductionHypothesis =>
    rw [insertDown, slides]
    have step := (slide_down_same slides before behind).trans
      (((drop_empty_same behind).behind [.insert slid]).behind _)
    exact step.trans inductionHypothesis
  | case3 before items present behind left slid passed remains slides =>
    cases left with
    | nil => exact (remains rfl).elim
    | cons item left =>
      rw [insertDown, slides]
      exact slide_down_same slides before behind
  | case4 before items deleted behind inductionHypothesis =>
    rw [List.reverse_cons, List.append_assoc] at inductionHypothesis
    rw [insertDown]
    have step := delete_over_insert_same deleted items behind
    exact (step.behind before.reverse).trans inductionHypothesis
  | case5 before items inserted behind inductionHypothesis =>
    rw [insertDown]
    have step := merge_inserts_same items inserted behind
    exact (step.behind before.reverse).trans inductionHypothesis

/-- Settling the inserted runs leaves what the script says, whatever the number of rounds. -/
theorem settleInserts_same (rounds : Nat) (before behind : List (Run α)) :
    SameEffect (before.reverse ++ behind) (settleInserts rounds before behind) := by
  induction rounds, before, behind using settleInserts.induct with
  | case1 before behind => exact .refl _
  | case2 rounds before => simpa [settleInserts] using SameEffect.refl before.reverse
  | case3 rounds before items behind up settled inductionHypothesis =>
    rw [settleInserts]
    have moved := (insertUp_same before items behind).trans
      (insertDown_same up.before up.items up.behind)
    rw [List.reverse_cons, List.append_assoc] at inductionHypothesis
    exact moved.trans inductionHypothesis
  | case4 rounds before run behind other inductionHypothesis =>
    rw [settleInserts]
    · simpa using inductionHypothesis
    · exact other

/-! ### Whole scripts -/

/-- Compaction leaves what a script says: it settles the deleted runs first and then the inserted
ones. -/
theorem compact_same (script : List (Run α)) : SameEffect script (compact script) :=
  (settleDeletes_same _ [] script).trans (settleInserts_same _ [] _)

/-- The compacted script of two sequences turns the old one into the new one. -/
theorem compact_matching_relates (old new : List α) :
    Relates (compact (matching old new)) old new :=
  (matching_relates old new).moved (compact_same _)

/-- A sequence that is compared with itself is kept as a whole, also after compaction. -/
theorem compact_matching_self (items : List α) :
    compact (matching items items) = equalRun items := by
  rw [matching_self]
  cases items with
  | nil => rfl
  | cons first rest => rfl

end Compaction

end TreeDelta.LineDiff
