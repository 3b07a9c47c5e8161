import Mathlib.Data.List.Forall2
import TreeDelta.Exchange.Decode
import TreeDelta.Proofs.Named
import TreeDelta.Proofs.Tree.Subtrees

/-!
# The keys of a decoded tree

Nothing keeps a document from listing a child twice, but a tree in which two branches of one node
have the same key is never decoded. The second of them is refused when the branches are collected,
and whatever is collected has been decoded before.
-/

namespace TreeDelta.Exchange

open Json (Value)

variable {ε α β : Type}

/-- A step succeeds after another one if both do. -/
theorem bind_ok {first : Except ε α} {next : α → Except ε β} {result : β} :
    first >>= next = .ok result ↔ ∃ passed, first = .ok passed ∧ next passed = .ok result := by
  cases first with
  | error refusal => simp [bind, Except.bind]
  | ok passed => simp [bind, Except.bind]

/-- Two steps stop where the first or the second stops. -/
theorem bind_error {first : Except ε α} {next : α → Except ε β} {refusal : ε} :
    first >>= next = .error refusal ↔
      first = .error refusal ∨ ∃ passed, first = .ok passed ∧ next passed = .error refusal := by
  cases first with
  | error other => simp [bind, Except.bind]
  | ok passed => simp [bind, Except.bind]

/-- The results of a list of steps that all succeed are those of each step. -/
theorem map_ok_results {step : α → Except ε β} {members : List α} {results : List β}
    (passed : members.mapM step = .ok results) :
    List.Forall₂ (fun member result => step member = .ok result) members results := by
  induction members generalizing results with
  | nil =>
    obtain rfl : [] = results := Except.ok.inj passed
    exact .nil
  | cons first rest inductionHypothesis =>
    rw [List.mapM_cons] at passed
    obtain ⟨head, firstPassed, passed⟩ := bind_ok.mp passed
    obtain ⟨tail, restPassed, same⟩ := bind_ok.mp passed
    obtain rfl : head :: tail = results := Except.ok.inj same
    exact .cons firstPassed (inductionHypothesis restPassed)

/-- What comes out of a list of steps that all succeed comes out of one of them. -/
theorem map_ok_member {step : α → Except ε β} {members : List α} {results : List β}
    (passed : members.mapM step = .ok results) {result : β} (listed : result ∈ results) :
    ∃ member ∈ members, step member = .ok result := by
  obtain ⟨lengths, each⟩ := List.forall₂_iff_get.mp (map_ok_results passed)
  obtain ⟨index, inside, rfl⟩ := List.getElem_of_mem listed
  exact ⟨members[index], List.getElem_mem _, each index (lengths ▸ inside) inside⟩

/-- If a list of steps succeeds, each of them does. -/
theorem map_ok_each {step : α → Except ε β} {members : List α} {results : List β}
    (passed : members.mapM step = .ok results) {member : α} (listed : member ∈ members) :
    ∃ result, step member = .ok result := by
  obtain ⟨lengths, each⟩ := List.forall₂_iff_get.mp (map_ok_results passed)
  obtain ⟨index, inside, rfl⟩ := List.getElem_of_mem listed
  exact ⟨_, each index inside (lengths ▸ inside)⟩

/-- If a list of steps stops, one of them does. -/
theorem map_error {step : α → Except ε β} {members : List α} {refusal : ε}
    (stopped : members.mapM step = .error refusal) :
    ∃ member ∈ members, step member = .error refusal := by
  induction members with
  | nil => cases stopped
  | cons first rest inductionHypothesis =>
    rw [List.mapM_cons] at stopped
    rcases bind_error.mp stopped with here | ⟨head, _, stopped⟩
    · exact ⟨first, List.mem_cons_self, here⟩
    · rcases bind_error.mp stopped with later | ⟨tail, _, stopped⟩
      · obtain ⟨member, listed, there⟩ := inductionHypothesis later
        exact ⟨member, List.mem_cons_of_mem first listed, there⟩
      · cases stopped

/-- The children that a field holds, in document order. -/
def Candidates.members : Candidates → List Candidate
  | .none | .invalid => []
  | .listed candidates | .keyed candidates => candidates

/-- Only children that are there are put in order.

Where an order is given, a child has either been looked up under a mentioned key or has not been
mentioned and been kept; both ways it comes from the candidates. -/
theorem arrange_members {trail : Trail} {fields : List (String × Value)} {candidates : Candidates}
    {ordered : List Candidate} (arranged : arrange trail fields candidates = .ok ordered)
    {candidate : Candidate} (listed : candidate ∈ ordered) : candidate ∈ candidates.members := by
  cases candidates with
  | none =>
    obtain rfl : [] = ordered := Except.ok.inj arranged
    exact listed
  | listed members =>
    obtain rfl : members = ordered := Except.ok.inj arranged
    exact listed
  | invalid => cases arranged
  | keyed members =>
    unfold arrange at arranged
    simp only at arranged
    split at arranged
    · obtain rfl : members = ordered := Except.ok.inj arranged
      exact listed
    · obtain rfl : members = ordered := Except.ok.inj arranged
      exact listed
    · obtain ⟨chosen, passed, same⟩ := bind_ok.mp arranged
      obtain rfl := Except.ok.inj same
      rcases List.mem_append.mp listed with named | unnamed
      · obtain ⟨mention, _, found⟩ := map_ok_member passed named
        split at found
        · split at found
          · next child looked =>
            obtain rfl := Except.ok.inj found
            obtain ⟨present, member, same⟩ := Named.mem_of_lookup looked
            rwa [eq_of_beq same]
          · cases found
        · cases found
      · exact List.mem_of_mem_filter unnamed
    · cases arranged

/-- Collected branches have different keys, none of which was taken, and each of them was a child
that could be decoded. -/
theorem collect_branches {trail : Trail} {taken : List String} {candidates : List Candidate}
    {branches : List (String × SyntaxTree)}
    (collected : collect trail taken candidates = .ok branches) :
    (branches.map Prod.fst).Nodup ∧ (∀ branch ∈ branches, branch.1 ∉ taken) ∧
      ∀ branch ∈ branches, (branch.1, .ok branch.2) ∈ candidates := by
  induction candidates generalizing taken branches with
  | nil =>
    obtain rfl : [] = branches := Except.ok.inj collected
    simp
  | cons candidate rest inductionHypothesis =>
    obtain ⟨relation, child⟩ := candidate
    obtain ⟨tree, rfl, kept⟩ := bind_ok.mp collected
    split at kept
    · cases kept
    · next free =>
      obtain ⟨further, restCollected, same⟩ := bind_ok.mp kept
      obtain rfl : (relation, tree) :: further = branches := Except.ok.inj same
      obtain ⟨differ, untaken, decoded⟩ := inductionHypothesis restCollected
      refine ⟨?_, ?_, ?_⟩
      · rw [List.map_cons, List.nodup_cons]
        refine ⟨fun again => ?_, differ⟩
        obtain ⟨branch, member, same⟩ := List.mem_map.mp again
        exact untaken branch member (same ▸ List.mem_cons_self)
      · intro branch member
        rcases List.mem_cons.mp member with rfl | later
        · exact free
        · exact fun old => untaken branch later (List.mem_cons_of_mem relation old)
      · intro branch member
        rcases List.mem_cons.mp member with rfl | later
        · exact List.mem_cons_self
        · exact List.mem_cons_of_mem _ (decoded branch later)

/-- What is decoded from a child has different keys if what is decoded from its value does. -/
theorem of_child_keys {value : Value} {decoded : Except DecodeError SyntaxTree}
    (differ : ∀ tree, decoded = .ok tree → tree.KeysDiffer) {tree : SyntaxTree}
    (child : ofChild value decoded = .ok tree) : tree.KeysDiffer := by
  unfold ofChild at child
  split at child
  · obtain rfl := Except.ok.inj child
    exact Tree.keys_differ_leaf _
  · exact differ tree child

mutual

/-- A tree decoded at a trail has different keys. -/
theorem decode_at_keys (trail : Trail) (value : Value) (tree : SyntaxTree)
    (decoded : decodeAt trail value = .ok tree) : tree.KeysDiffer := by
  cases value with
  | object fields =>
    unfold decodeAt at decoded
    obtain ⟨top, _, decoded⟩ := bind_ok.mp decoded
    obtain ⟨ordered, arranged, decoded⟩ := bind_ok.mp decoded
    obtain ⟨branches, collected, same⟩ := bind_ok.mp decoded
    obtain rfl : Tree.node top branches = tree := Except.ok.inj same
    obtain ⟨differ, _, members⟩ := collect_branches collected
    refine (Tree.keys_differ_node top branches).mpr ⟨differ, fun branch member => ?_⟩
    exact candidates_among_keys trail fields _ (arrange_members arranged (members branch member))
      branch.2 rfl
  | null | bool | number | string | array =>
    unfold decodeAt at decoded
    cases decoded

/-- The children among the fields of an object have different keys. -/
theorem candidates_among_keys (trail : Trail) (fields : List (String × Value))
    (candidate : Candidate) (listed : candidate ∈ (candidatesAmong trail fields).members)
    (tree : SyntaxTree) (decoded : candidate.2 = .ok tree) : tree.KeysDiffer := by
  cases fields with
  | nil => cases listed
  | cons field rest =>
    unfold candidatesAmong at listed
    split at listed
    · exact candidates_of_keys trail field.2 candidate listed tree decoded
    · exact candidates_among_keys trail rest candidate listed tree decoded

/-- The children that a field holds have different keys. -/
theorem candidates_of_keys (trail : Trail) (value : Value) (candidate : Candidate)
    (listed : candidate ∈ (candidatesOf trail value).members) (tree : SyntaxTree)
    (decoded : candidate.2 = .ok tree) : tree.KeysDiffer := by
  cases value with
  | object entries =>
    unfold candidatesOf at listed
    exact decode_entries_keys trail entries candidate listed tree decoded
  | array elements =>
    unfold candidatesOf at listed
    exact decode_elements_keys trail 0 elements candidate listed tree decoded
  | null | bool | number | string =>
    unfold candidatesOf at listed
    cases listed

/-- The children of an array have different keys. -/
theorem decode_elements_keys (trail : Trail) (index : Nat) (elements : List Value)
    (candidate : Candidate) (listed : candidate ∈ decodeElements trail index elements)
    (tree : SyntaxTree) (decoded : candidate.2 = .ok tree) : tree.KeysDiffer := by
  cases elements with
  | nil => cases listed
  | cons child rest =>
    unfold decodeElements at listed
    rcases List.mem_cons.mp listed with rfl | later
    · exact of_child_keys (decode_at_keys (trail ++ [toString index]) child) decoded
    · exact decode_elements_keys trail (index + 1) rest candidate later tree decoded

/-- The children of an object have different keys. -/
theorem decode_entries_keys (trail : Trail) (entries : List (String × Value))
    (candidate : Candidate) (listed : candidate ∈ decodeEntries trail entries)
    (tree : SyntaxTree) (decoded : candidate.2 = .ok tree) : tree.KeysDiffer := by
  cases entries with
  | nil => cases listed
  | cons entry rest =>
    unfold decodeEntries at listed
    rcases List.mem_cons.mp listed with rfl | later
    · exact of_child_keys (decode_at_keys (trail ++ [entry.1]) entry.2) decoded
    · exact decode_entries_keys trail rest candidate later tree decoded

end

/-- The branches of every node of a decoded tree have different keys. -/
theorem decode_keys {value : Value} {tree : SyntaxTree} (decoded : decode value = .ok tree) :
    tree.KeysDiffer :=
  decode_at_keys [] value tree decoded

end TreeDelta.Exchange
