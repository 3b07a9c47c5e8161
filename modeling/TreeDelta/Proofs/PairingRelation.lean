import Mathlib.Data.Set.Card
import TreeDelta.Proofs.Pairing

/-!
# A pairing is a one-to-one relation

A relation between left and right members is a set of pairs, and it is one-to-one if no two of its
pairs have a left or a right member in common. Putting a pair into such a relation drops the pairs
that share a member with it; taking a member out drops its pair. Members are the same if the
equality test of their side says so, which need not mean that they are equal.

A pairing holds the pairs of a relation in two tables. It represents the relation if the left table
has its pairs, no two of which share a member, and the right table has the same pairs the other way
round. Every operation takes what represents a relation to what represents the relation that it
makes of it, so whatever has been done to a pairing, all that it says can be read off the relation.
-/

namespace TreeDelta.Pairing

variable {α β : Type}

/-- What can be done to a pairing. -/
inductive Operation (α β : Type) where
  | put (left : α) (right : β)
  | removeLeft (left : α)
  | removeRight (right : β)
  | clear
  | copy
  | collect (pairs : List (α × β))

section Definitions

variable [BEq α] [BEq β]

/-- The pairing that an operation leaves. -/
def Operation.apply (pairing : Pairing α β) : Operation α β → Pairing α β
  | put left right => (pairing.put left right).2
  | removeLeft left => (pairing.removeLeft left).2
  | removeRight right => (pairing.removeRight right).2
  | clear => pairing.clear
  | copy => pairing.copy
  | collect pairs => ofList pairs

/-- The pairs of a relation with another left member. -/
def withoutLeft (relation : Set (α × β)) (left : α) : Set (α × β) :=
  {pair ∈ relation | (pair.1 == left) = false}

/-- The pairs of a relation with another right member. -/
def withoutRight (relation : Set (α × β)) (right : β) : Set (α × β) :=
  {pair ∈ relation | (pair.2 == right) = false}

/-- A relation with one more pair, which takes the place of those that share a member with it. -/
def withPair (relation : Set (α × β)) (left : α) (right : β) : Set (α × β) :=
  withoutRight (withoutLeft relation left) right ∪ {(left, right)}

/-- The relation that an operation makes of a relation. -/
def Operation.relate (relation : Set (α × β)) : Operation α β → Set (α × β)
  | put left right => withPair relation left right
  | removeLeft left => withoutLeft relation left
  | removeRight right => withoutRight relation right
  | clear => ∅
  | copy => relation
  | collect pairs => pairs.foldl (fun relation pair => withPair relation pair.1 pair.2) ∅

/-- No member of a relation has two partners. -/
def Exclusive (relation : Set (α × β)) : Prop :=
  ∀ first ∈ relation, ∀ second ∈ relation,
    (first.1 == second.1) = true ∨ (first.2 == second.2) = true → first = second

/-- The right partners of a left member. There is at most one if the relation is one-to-one. -/
def rightPartners (relation : Set (α × β)) (left : α) : Set β :=
  {right | ∃ member, (member, right) ∈ relation ∧ (member == left) = true}

/-- The left partners of a right member. -/
def leftPartners (relation : Set (α × β)) (right : β) : Set α :=
  {left | ∃ member, (left, member) ∈ relation ∧ (member == right) = true}

/-- All that a pairing says, from either side, is what a relation says. -/
structure ReadsOff (pairing : Pairing α β) (relation : Set (α × β)) : Prop where
  right? : ∀ left right, pairing.right? left = some right ↔ right ∈ rightPartners relation left
  left? : ∀ right left, pairing.left? right = some left ↔ left ∈ leftPartners relation right
  hasLeft : ∀ left, pairing.hasLeft left = true ↔ (rightPartners relation left).Nonempty
  hasRight : ∀ right, pairing.hasRight right = true ↔ (leftPartners relation right).Nonempty
  lefts : ∀ left, left ∈ pairing.lefts ↔ ∃ right, (left, right) ∈ relation
  leftsDiffer : pairing.lefts.Pairwise fun first second => (second == first) = false
  rights : ∀ right, right ∈ pairing.rights ↔ ∃ left, (left, right) ∈ relation
  rightsDiffer : pairing.rights.Pairwise fun first second => (second == first) = false
  pairs : ∀ pair, pair ∈ pairing.pairs ↔ pair ∈ relation
  pairsDiffer : pairing.pairs.Nodup
  size : pairing.size = relation.ncard
  sizes : pairing.leftOf.length = pairing.rightOf.length
  isEmpty : pairing.isEmpty = true ↔ relation = ∅

/-- A pairing holds the pairs of a relation: no two of them share a member, and both tables hold the
same ones. -/
structure Represents (pairing : Pairing α β) (relation : Set (α × β)) : Prop where
  pairs : ∀ pair, pair ∈ pairing.rightOf ↔ pair ∈ relation
  apart : Apart pairing.rightOf
  mirrored : pairing.leftOf.Perm (pairing.rightOf.map Prod.swap)

end Definitions

/-- The pairing seen from the other side. -/
def converse (pairing : Pairing α β) : Pairing β α := ⟨pairing.leftOf, pairing.rightOf⟩

/-- A table whose keys are all different is filled with the same entries. -/
theorem refill_apart [BEq α] [EquivBEq α] {table : List (α × β)}
    (apart : table.Pairwise fun first second => (second.1 == first.1) = false) :
    refill table = table.reverse := by
  induction table using List.reverseRecOn with
  | nil => rfl
  | append_singleton before entry inductionHypothesis =>
    obtain ⟨earlier, -, different⟩ := List.pairwise_append.mp apart
    have filled := inductionHypothesis earlier
    rw [refill] at filled
    have absent : (before.reverse.any fun other => other.1 == entry.1) = false := by
      rw [List.any_eq_false]
      intro other member
      rw [BEq.comm, different other (List.mem_reverse.mp member) entry List.mem_cons_self]
      exact Bool.false_ne_true
    rw [refill, List.foldl_append, filled, List.foldl_cons, List.foldl_nil, setEntry, absent,
      List.reverse_append]
    rfl

variable [BEq α] [BEq β]

/-- Taking a left member out leaves the entries of the left table with other keys. -/
theorem remove_left_entries [EquivBEq α] (pairing : Pairing α β) (left : α) :
    (pairing.removeLeft left).2.rightOf = eraseKey left pairing.rightOf := by
  cases found : pairing.right? left with
  | some right => simp only [removeLeft, found]
  | none =>
    have kept : eraseKey left pairing.rightOf = pairing.rightOf := by
      refine List.filter_eq_self.mpr fun entry member => ?_
      have different := List.lookup_eq_none_iff.mp found entry member
      rwa [bne, BEq.comm] at different
    simp only [removeLeft, found, kept]

/-- The result of taking a left member out is its partner. -/
theorem remove_left_former (pairing : Pairing α β) (left : α) :
    (pairing.removeLeft left).1 = pairing.right? left := by
  cases found : pairing.right? left <;> simp only [removeLeft, found]

/-- Taking out a right member is taking out a left member, seen from the other side. -/
theorem remove_right_converse (pairing : Pairing α β) (right : β) :
    pairing.removeRight right =
      ((pairing.converse.removeLeft right).1, (pairing.converse.removeLeft right).2.converse) := by
  cases found : pairing.left? right with
  | none =>
    have absent : pairing.converse.right? right = none := found
    simp only [removeRight, removeLeft, found, absent]
    rfl
  | some left =>
    have present : pairing.converse.right? right = some left := found
    simp only [removeRight, removeLeft, found, present]
    rfl

/-- Seen from the other side, pairs without common members have none either. -/
theorem Apart.swap {pairs : List (α × β)} (apart : Apart pairs) :
    Apart (pairs.map Prod.swap) :=
  ⟨List.pairwise_map.mpr apart.rights, List.pairwise_map.mpr apart.lefts⟩

/-- Pairs without common members stay so in any order. -/
theorem Apart.perm [EquivBEq α] [EquivBEq β] {pairs others : List (α × β)} (apart : Apart pairs)
    (same : others.Perm pairs) : Apart others :=
  ⟨(same.pairwise_iff fun differ => by rwa [BEq.comm]).mpr apart.lefts,
    (same.pairwise_iff fun differ => by rwa [BEq.comm]).mpr apart.rights⟩

/-- Pairs without common members are held as they are. -/
theorem represents_apart [EquivBEq α] [EquivBEq β] {pairs : List (α × β)}
    (apart : Apart pairs) : Represents (ofList pairs) {pair | pair ∈ pairs} := by
  rw [of_list_apart pairs apart]
  refine ⟨fun pair => List.mem_reverse, apart.perm (List.reverse_perm pairs), ?_⟩
  rw [← List.map_reverse]

namespace Represents

variable {pairing other : Pairing α β} {relation : Set (α × β)}

/-- The empty pairing represents the empty relation. -/
theorem empty : Represents (Pairing.empty : Pairing α β) ∅ where
  pairs _ := by simp [Pairing.empty]
  apart := ⟨.nil, .nil⟩
  mirrored := .nil

/-- A pair whose members have no partners is added. -/
theorem add (represents : Represents pairing relation) {left : α} {right : β}
    (leftFree : ∀ pair ∈ relation, (pair.1 == left) = false)
    (rightFree : ∀ pair ∈ relation, (pair.2 == right) = false) :
    Represents ⟨(left, right) :: pairing.rightOf, (right, left) :: pairing.leftOf⟩
      (relation ∪ {(left, right)}) where
  pairs pair := by
    rw [List.mem_cons, represents.pairs, Set.mem_union, Set.mem_singleton_iff, or_comm]
  apart :=
    ⟨List.pairwise_cons.mpr ⟨fun pair member => leftFree pair ((represents.pairs pair).mp member),
      represents.apart.lefts⟩,
    List.pairwise_cons.mpr ⟨fun pair member => rightFree pair ((represents.pairs pair).mp member),
      represents.apart.rights⟩⟩
  mirrored := represents.mirrored.cons _

/-- A left member is looked up under any member that counts as the same. -/
theorem right_iff [EquivBEq α] (represents : Represents pairing relation) (left : α) (right : β) :
    pairing.right? left = some right ↔ right ∈ rightPartners relation left := by
  rw [right?, Named.lookup_iff represents.apart.lefts]
  simp only [represents.pairs]
  rfl

/-- No pair is held twice. -/
theorem pairs_nodup [EquivBEq α] (represents : Represents pairing relation) :
    pairing.rightOf.Nodup := by
  refine represents.apart.lefts.imp fun differ same => ?_
  rw [same, BEq.rfl] at differ
  cases differ

/-- There are as many entries as pairs. -/
theorem size [EquivBEq α] (represents : Represents pairing relation) :
    pairing.size = relation.ncard := by
  classical
  have listed : relation = pairing.rightOf.toFinset := by
    ext pair
    simp [represents.pairs]
  rw [listed, Set.ncard_coe_finset, List.toFinset_card_of_nodup represents.pairs_nodup]
  rfl

variable [EquivBEq α] [EquivBEq β]

/-- The order of the tables carries no meaning. -/
theorem of_perm (represents : Represents pairing relation)
    (rightOf : other.rightOf.Perm pairing.rightOf) (leftOf : other.leftOf.Perm pairing.leftOf) :
    Represents other relation where
  pairs pair := rightOf.mem_iff.trans (represents.pairs pair)
  apart := represents.apart.perm rightOf
  mirrored := (leftOf.trans represents.mirrored).trans (rightOf.map Prod.swap).symm

/-- The pairing seen from the other side holds the pairs the other way round. -/
theorem converse (represents : Represents pairing relation) :
    Represents pairing.converse (Set.preimage Prod.swap relation) where
  pairs pair := by
    rw [Set.mem_preimage, ← represents.pairs, Pairing.converse, represents.mirrored.mem_iff]
    exact ⟨fun member => by simpa using List.mem_map_of_mem (f := Prod.swap) member,
      fun member => by simpa using List.mem_map_of_mem (f := Prod.swap) member⟩
  apart := represents.apart.swap.perm represents.mirrored
  mirrored := by
    have back := (represents.mirrored.map Prod.swap).symm
    simpa [Pairing.converse] using back

/-- A relation that a pairing represents is one-to-one. -/
theorem exclusive (represents : Represents pairing relation) : Exclusive relation := by
  intro first firstMember second secondMember shared
  have firstListed := (represents.pairs first).mpr firstMember
  have secondListed := (represents.pairs second).mpr secondMember
  rcases shared with sameLeft | sameRight
  · exact represents.apart.eq_of_left firstListed secondListed sameLeft
  · exact Prod.swap_injective (represents.apart.swap.eq_of_left
      (List.mem_map_of_mem firstListed) (List.mem_map_of_mem secondListed) sameRight)

/-- A right member is looked up under any member that counts as the same. -/
theorem left_iff (represents : Represents pairing relation) (right : β) (left : α) :
    pairing.left? right = some left ↔ left ∈ leftPartners relation right :=
  represents.converse.right_iff right left

/-- Taking a left member out drops its pair.

That the left table holds what the relation keeps is a fact about filters. The right one loses the
key of the partner, which stands for the same pair, because the relation is exclusive. -/
theorem remove_left (represents : Represents pairing relation) (left : α) :
    Represents (pairing.removeLeft left).2 (withoutLeft relation left) where
  pairs pair := by
    rw [remove_left_entries, eraseKey, List.mem_filter, represents.pairs]
    simp [withoutLeft]
  apart := by
    rw [remove_left_entries]
    exact ⟨represents.apart.lefts.filter _, represents.apart.rights.filter _⟩
  mirrored := by
    rw [remove_left_entries]
    cases found : pairing.right? left with
    | none =>
      -- Nothing is taken out, so no entry of the left table has the key.
      have entries := remove_left_entries pairing left
      simp only [removeLeft, found] at entries ⊢
      rw [← entries]
      exact represents.mirrored
    | some right =>
      obtain ⟨present, paired, same⟩ := (represents.right_iff left right).mp found
      -- The partner's key stands for the same pair as the member's own.
      have together : ∀ entry ∈ pairing.rightOf, (entry.2 == right) = (entry.1 == left) := by
        intro entry member
        have only := represents.exclusive entry ((represents.pairs entry).mp member) _ paired
        rw [Bool.eq_iff_iff]
        constructor
        · intro sameRight
          rwa [only (.inr sameRight)]
        · intro sameLeft
          rw [only (.inl (BEq.trans sameLeft (BEq.symm same)))]
          exact BEq.rfl
      have mirrored := represents.mirrored.filter fun entry => !(entry.1 == right)
      rw [List.filter_map] at mirrored
      simp only [removeLeft, found, eraseKey]
      refine mirrored.trans (List.Perm.of_eq (congrArg (List.map Prod.swap) ?_))
      refine List.filter_congr fun entry member => ?_
      simp only [Function.comp_apply, Prod.fst_swap, together entry member]

/-- Taking a right member out drops its pair. -/
theorem remove_right (represents : Represents pairing relation) (right : β) :
    Represents (pairing.removeRight right).2 (withoutRight relation right) := by
  rw [remove_right_converse]
  exact (represents.converse.remove_left right).converse

/-- Putting a pair takes both of its members out of the pairs they were in. -/
theorem put (represents : Represents pairing relation) (left : α) (right : β) :
    Represents (pairing.put left right).2 (withPair relation left right) := by
  have apart := (represents.remove_left left).remove_right right
  exact apart.add (fun pair member => member.1.2) (fun pair member => member.2)

/-- The pairing of a list of pairs represents what putting them makes of the empty relation. -/
theorem of_list (pairs : List (α × β)) :
    Represents (ofList pairs) ((Operation.collect pairs).relate ∅) := by
  induction pairs using List.reverseRecOn with
  | nil => exact empty
  | append_singleton before pair inductionHypothesis =>
    rw [of_list_concat, Operation.relate, List.foldl_append, List.foldl_cons, List.foldl_nil]
    exact inductionHypothesis.put pair.1 pair.2

/-- A copy holds the same pairs. -/
theorem copy (represents : Represents pairing relation) : Represents pairing.copy relation := by
  have rightOf := refill_apart represents.apart.lefts
  have leftOf := refill_apart represents.converse.apart.lefts
  apply represents.of_perm
  · exact (List.Perm.of_eq rightOf).trans (List.reverse_perm _)
  · exact (List.Perm.of_eq leftOf).trans (List.reverse_perm _)

/-- An operation takes what represents a relation to what represents the relation that it makes of
it. -/
theorem apply (represents : Represents pairing relation) (operation : Operation α β) :
    Represents (operation.apply pairing) (operation.relate relation) := by
  cases operation with
  | put left right => exact represents.put left right
  | removeLeft left => exact represents.remove_left left
  | removeRight right => exact represents.remove_right right
  | clear => exact empty
  | copy => exact represents.copy
  | collect pairs => exact of_list pairs

/-- Whatever has been done to a pairing, it represents the relation to which the same has been
done. -/
theorem run (operations : List (Operation α β)) :
    Represents (operations.foldl Operation.apply Pairing.empty)
      (operations.foldl Operation.relate ∅) := by
  induction operations using List.reverseRecOn with
  | nil => exact empty
  | append_singleton before operation inductionHypothesis =>
    simp only [List.foldl_append, List.foldl_cons, List.foldl_nil]
    exact inductionHypothesis.apply operation

/-- The partner of a partner counts as the same as the member. -/
theorem partner_back (represents : Represents pairing relation) {left : α} {right : β}
    (found : pairing.right? left = some right) :
    ∃ member, pairing.left? right = some member ∧ (member == left) = true := by
  obtain ⟨member, paired, same⟩ := (represents.right_iff left right).mp found
  exact ⟨member, (represents.left_iff right member).mpr ⟨right, paired, BEq.rfl⟩, same⟩

/-- All that a pairing says can be read off the relation that it represents. -/
theorem reads_off (represents : Represents pairing relation) : ReadsOff pairing relation where
  right? := represents.right_iff
  left? := represents.left_iff
  hasLeft left := by
    rw [hasLeft, Option.isSome_iff_exists]
    exact exists_congr (represents.right_iff left)
  hasRight right := by
    rw [hasRight, Option.isSome_iff_exists]
    exact exists_congr (represents.left_iff right)
  lefts left := by simp [lefts, represents.pairs]
  leftsDiffer := List.pairwise_map.mpr represents.apart.lefts
  rights right := by simp [rights, represents.mirrored.mem_iff, represents.pairs]
  rightsDiffer := List.pairwise_map.mpr represents.converse.apart.lefts
  pairs := represents.pairs
  pairsDiffer := represents.pairs_nodup
  size := represents.size
  sizes := by simpa using represents.mirrored.length_eq
  isEmpty := by
    rw [isEmpty, List.isEmpty_iff, List.eq_nil_iff_forall_not_mem, Set.eq_empty_iff_forall_notMem]
    exact forall_congr' fun pair => not_congr (represents.pairs pair)

end Represents

/-- Whatever has been done to a pairing, it behaves as the one-to-one relation to which the same has
been done. All that it says is read off the relation, the partner of a partner is the member itself
or one that counts as the same, and a member that is put into a pair or taken out of one gives back
the partner that it had in the relation.

`Represents.run` says that the two tables represent the relation after every operation, and
everything else is read off from that. What holds for right members is the same for the converse. -/
theorem behaves_as_relation [EquivBEq α] [EquivBEq β] (operations : List (Operation α β)) :
    let pairing := operations.foldl Operation.apply empty
    let relation := operations.foldl Operation.relate ∅
    Exclusive relation ∧ ReadsOff pairing relation ∧
      (∀ left right, pairing.right? left = some right →
        ∃ member, pairing.left? right = some member ∧ (member == left) = true) ∧
      (∀ right left, pairing.left? right = some left →
        ∃ member, pairing.right? left = some member ∧ (member == right) = true) ∧
      (∀ left right former,
        (pairing.put left right).1 = some former ↔ former ∈ rightPartners relation left) ∧
      (∀ left former,
        (pairing.removeLeft left).1 = some former ↔ former ∈ rightPartners relation left) ∧
      ∀ right former,
        (pairing.removeRight right).1 = some former ↔ former ∈ leftPartners relation right := by
  intro pairing relation
  have represents : Represents pairing relation := .run operations
  have removedLeft (left : α) (former : β) :
      (pairing.removeLeft left).1 = some former ↔ former ∈ rightPartners relation left := by
    rw [remove_left_former]
    exact represents.right_iff left former
  refine ⟨represents.exclusive, represents.reads_off, fun left right => represents.partner_back,
    fun right left => represents.converse.partner_back, fun left right former => ?_, removedLeft,
    fun right former => ?_⟩
  · exact removedLeft left former
  · rw [remove_right_converse, remove_left_former]
    exact represents.left_iff right former

/-- Occurrences are compared by their positions, whatever they contain. -/
instance {γ : Type} : EquivBEq (Occurrence γ) where
  symm := fun {first second} (same : (first.position == second.position) = true) =>
    show (second.position == first.position) = true from BEq.symm same
  trans := fun {first second third} (same : (first.position == second.position) = true)
      (next : (second.position == third.position) = true) =>
    show (first.position == third.position) = true from BEq.trans same next
  rfl := fun {occurrence} => show (occurrence.position == occurrence.position) = true from BEq.rfl

/-- Two occurrences of one word have partners of their own. The first one, whatever it contains by
now, gives back its partner when it gets the other one's. -/
theorem first_occurrence_repaired :
    let operations : List (Operation (Occurrence String) Nat) :=
      [.put ⟨0, "word"⟩ 1, .put ⟨1, "word"⟩ 2, .copy]
    let pairing := operations.foldl Operation.apply empty
    let relation := operations.foldl Operation.relate ∅
    pairing.size = 2 ∧ relation.ncard = 2 ∧ (pairing.put ⟨0, "term"⟩ 2).1 = some 1 ∧
      1 ∈ rightPartners relation ⟨0, "term"⟩ := by
  intro operations pairing relation
  obtain ⟨-, reads, -, -, former, -⟩ := behaves_as_relation operations
  have size : pairing.size = 2 := by decide
  have given : (pairing.put ⟨0, "term"⟩ 2).1 = some 1 := by decide
  exact ⟨size, reads.size.symm.trans size, given, (former _ _ _).mp given⟩

end TreeDelta.Pairing
