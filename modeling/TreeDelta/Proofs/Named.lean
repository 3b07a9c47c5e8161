import Mathlib.Data.List.Nodup

/-!
# Things with names

Where no two members of a list have the same name, a name is as good as its member: the member is
found by it, can be put in front of the others by it, and is what a table holds under it.
-/

namespace TreeDelta.Named

variable {ι ν β : Type}

/-- Of several things with different names, the one with a name is found by the name. -/
theorem find_named [DecidableEq ν] (name : ι → ν) {members : List ι} {member : ι}
    (unique : (members.map name).Nodup) (present : member ∈ members) :
    members.find? (fun other => name other = name member) = some member := by
  induction members with
  | nil => simp at present
  | cons first rest inductionHypothesis =>
    simp only [List.map_cons, List.nodup_cons] at unique
    rcases List.mem_cons.mp present with rfl | later
    · simp
    · have different : name first ≠ name member := fun same =>
        unique.1 (same ▸ List.mem_map_of_mem later)
      simpa [List.find?_cons, different] using inductionHypothesis unique.2 later

/-- Of several things with different names, one can be put in front of those with other names. -/
theorem split_named [DecidableEq ν] (name : ι → ν) {members : List ι} {member : ι}
    (unique : (members.map name).Nodup) (present : member ∈ members) :
    members.Perm (member :: members.filter fun other => name other ≠ name member) := by
  induction members with
  | nil => simp at present
  | cons first rest inductionHypothesis =>
    simp only [List.map_cons, List.nodup_cons] at unique
    rcases List.mem_cons.mp present with rfl | later
    · have untouched : rest.filter (fun other => name other ≠ name member) = rest := by
        refine List.filter_eq_self.mpr fun other otherMember => ?_
        have different : name other ≠ name member := fun same =>
          unique.1 (same ▸ List.mem_map_of_mem otherMember)
        simpa using different
      rw [List.filter_cons_of_neg (by simp), untouched]
    · have different : name first ≠ name member := fun same =>
        unique.1 (same ▸ List.mem_map_of_mem later)
      have kept : (first :: rest).filter (fun other => name other ≠ name member) =
          first :: rest.filter fun other => name other ≠ name member := by
        simp [different]
      rw [kept]
      exact ((inductionHypothesis unique.2 later).cons first).trans (List.Perm.swap member first _)

/-- What is looked up in a table has an entry there. -/
theorem mem_of_lookup [BEq ν] {table : List (ν × β)} {key : ν} {value : β}
    (found : table.lookup key = some value) :
    ∃ present, (present, value) ∈ table ∧ (key == present) = true := by
  induction table with
  | nil => simp at found
  | cons entry rest inductionHypothesis =>
    obtain ⟨present, held⟩ := entry
    cases same : key == present with
    | true =>
      obtain rfl : held = value := by simpa [List.lookup_cons, same] using found
      exact ⟨present, List.mem_cons_self, same⟩
    | false =>
      obtain ⟨other, member, equal⟩ := inductionHypothesis (by
        simpa [List.lookup_cons, same] using found)
      exact ⟨other, List.mem_cons_of_mem _ member, equal⟩

/-- Where no two keys of a table count as the same, a key leads to the value of the one entry whose
key counts as the same. -/
theorem lookup_iff [BEq ν] [EquivBEq ν] {table : List (ν × β)}
    (apart : table.Pairwise fun first second => (second.1 == first.1) = false) (key : ν)
    (value : β) :
    table.lookup key = some value ↔
      ∃ present, (present, value) ∈ table ∧ (present == key) = true := by
  constructor
  · intro found
    obtain ⟨present, member, same⟩ := mem_of_lookup found
    exact ⟨present, member, BEq.symm same⟩
  · rintro ⟨present, member, same⟩
    induction table with
    | nil => simp at member
    | cons entry rest inductionHypothesis =>
      obtain ⟨other, held⟩ := entry
      rw [List.pairwise_cons] at apart
      rcases List.mem_cons.mp member with here | later
      · obtain ⟨rfl, rfl⟩ := Prod.mk.inj here
        simp [List.lookup_cons, BEq.symm same]
      · have different : (key == other) = false := by
          rw [← BEq.congr_left same]
          exact apart.1 _ later
        simpa [List.lookup_cons, different] using inductionHypothesis apart.2 later

/-- A table with different keys holds the value of an entry under its key. -/
theorem lookup_named [BEq ν] [LawfulBEq ν] {table : List (ν × β)} {key : ν} {value : β}
    (unique : (table.map Prod.fst).Nodup) (member : (key, value) ∈ table) :
    table.lookup key = some value := by
  have apart : table.Pairwise fun first second => (second.1 == first.1) = false :=
    (List.pairwise_map.mp unique).imp fun different => beq_eq_false_iff_ne.mpr different.symm
  exact (lookup_iff apart key value).mpr ⟨key, member, BEq.rfl⟩

/-- Different numbers have different numerals. -/
theorem numerals_differ {first second : Nat} (same : toString first = toString second) :
    first = second := by
  rw [Nat.toString_eq_ofList_toDigits, Nat.toString_eq_ofList_toDigits] at same
  have digits := congrArg (Nat.ofDigitChars 10 · 0) (String.ofList_injective same)
  simpa only [Nat.ofDigitChars_ten_toDigits] using digits

end TreeDelta.Named
