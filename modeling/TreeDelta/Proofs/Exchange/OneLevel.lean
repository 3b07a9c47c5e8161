import TreeDelta.Proofs.Exchange.OwnFields

/-!
# Decoding one level

An object decodes as a node over branches exactly if its own fields decode as the node, its children
can be put in order, each of them decodes as its branch, and no two keys are the same. Nothing is
said of the values of the children but that they decode, so this is one level of a tree, and what
holds of all levels follows by induction over the tree or over the value.

The order of the tree is that of the object or of the array unless keys are listed: then the
children that are listed come first, as they are listed, and the others follow as they stand.
-/

namespace TreeDelta.Exchange

open Json (Value)

variable {trail : Trail} {fields entries : List (String × Value)} {relations : List String}

/-! ### The order of the children -/

/-- A value as a string, if it is one. -/
def textOf? : Value → Option String
  | .string text => some text
  | _ => none

/-- The keys that the order of the children lists. -/
def listedKeys (fields : List (String × Value)) : List String :=
  match fields.lookup Field.childrenOrder.name with
  | some (.array order) => order.filterMap textOf?
  | _ => []

/-- Whether a value is an array of strings. -/
def IsTexts (value : Value) : Prop := ∃ texts : List String, value = .array (texts.map .string)

/-- Whether the order of the children is missing or lists keys of theirs. -/
structure OrderKnown (fields entries : List (String × Value)) : Prop where
  form : MayHold fields .childrenOrder IsTexts
  known : ∀ relation ∈ listedKeys fields, relation ∈ entries.map Prod.fst

/-- Entries in the order of some keys, and behind them the entries with other keys. -/
def listedFirst (relations : List String) (entries : List (String × Value)) :
    List (String × Value) :=
  (relations.filterMap fun relation => (entries.lookup relation).map fun child => (relation, child))
    ++ entries.filter fun entry => entry.1 ∉ relations

/-- The children of an object with their keys, in the order of the tree. -/
def orderedChildren (fields : List (String × Value)) : List (String × Value) :=
  match fields.lookup Field.children.name with
  | some (.array elements) => elements.mapIdx fun index child => (toString index, child)
  | some (.object entries) => listedFirst (listedKeys fields) entries
  | _ => []

/-- The strings in an array of strings are its elements. -/
theorem texts_of_strings (texts : List String) :
    (texts.map Value.string).filterMap textOf? = texts := by
  simp [List.filterMap_map, Function.comp_def, textOf?]

/-- Values that are all strings are the strings among them. -/
theorem strings_of_texts {values : List Value} (texts : ∀ value ∈ values, IsText value) :
    (values.filterMap textOf?).map .string = values := by
  induction values with
  | nil => rfl
  | cons value rest inductionHypothesis =>
    obtain ⟨text, rfl⟩ := texts value List.mem_cons_self
    have restTexts := inductionHypothesis fun other later =>
      texts other (List.mem_cons_of_mem _ later)
    simp [textOf?, restTexts]

/-- A key of a list of entries is looked up in it. -/
theorem lookup_of_key {relation : String} (known : relation ∈ entries.map Prod.fst) :
    ∃ child, entries.lookup relation = some child := by
  cases found : entries.lookup relation with
  | some child => exact ⟨child, rfl⟩
  | none =>
    obtain ⟨entry, member, rfl⟩ := List.mem_map.mp known
    simpa using List.lookup_eq_none_iff.mp found entry member

/-- A key that is looked up in a list of entries has an entry there. -/
theorem mem_of_looked_up {relation : String} {child : Value}
    (found : entries.lookup relation = some child) : (relation, child) ∈ entries := by
  obtain ⟨present, member, same⟩ := Named.mem_of_lookup found
  obtain rfl := eq_of_beq same
  exact member

/-- If all listed keys are there, the entries that they lead to have just these keys. -/
theorem listed_keys (known : ∀ relation ∈ relations, relation ∈ entries.map Prod.fst) :
    (relations.filterMap fun relation =>
      (entries.lookup relation).map fun child => (relation, child)).map Prod.fst = relations := by
  induction relations with
  | nil => rfl
  | cons relation rest inductionHypothesis =>
    obtain ⟨child, found⟩ := lookup_of_key (known relation List.mem_cons_self)
    have restListed := inductionHypothesis fun other later =>
      known other (List.mem_cons_of_mem relation later)
    simp [found, restListed]

/-- Only entries are put in order. -/
theorem mem_of_listed_first {entry : String × Value}
    (listed : entry ∈ listedFirst relations entries) : entry ∈ entries := by
  rcases List.mem_append.mp listed with named | other
  · obtain ⟨relation, _, looked⟩ := List.mem_filterMap.mp named
    obtain ⟨child, found, rfl⟩ := Option.map_eq_some_iff.mp looked
    exact mem_of_looked_up found
  · exact List.mem_of_mem_filter other

/-- Putting entries with different keys in order loses none of them. -/
theorem mem_listed_first (differ : (entries.map Prod.fst).Nodup) (entry : String × Value) :
    entry ∈ listedFirst relations entries ↔ entry ∈ entries := by
  refine ⟨mem_of_listed_first, fun member => List.mem_append.mpr ?_⟩
  by_cases listed : entry.1 ∈ relations
  · refine .inl (List.mem_filterMap.mpr ⟨entry.1, listed, ?_⟩)
    rw [Named.lookup_named differ member]
    rfl
  · exact .inr (List.mem_filter.mpr ⟨member, decide_eq_true listed⟩)

/-- Entries in order have different keys exactly if none is listed twice. -/
theorem listed_first_nodup (differ : (entries.map Prod.fst).Nodup)
    (known : ∀ relation ∈ relations, relation ∈ entries.map Prod.fst) :
    ((listedFirst relations entries).map Prod.fst).Nodup ↔ relations.Nodup := by
  rw [listedFirst, List.map_append, listed_keys known, List.nodup_append]
  constructor
  · exact And.left
  · intro once
    refine ⟨once, differ.sublist (List.filter_sublist.map Prod.fst), ?_⟩
    rintro relation listed _ member rfl
    obtain ⟨entry, unlisted, same⟩ := List.mem_map.mp member
    have other := of_decide_eq_true (List.mem_filter.mp unlisted).2
    exact other (same ▸ listed)

/-! ### One level -/

/-- A child as it is decoded where it stands. -/
def candidate (trail : Trail) (entry : String × Value) : Candidate :=
  (entry.1, ofChild entry.2 (decodeAt (trail ++ [entry.1]) entry.2))

/-- A child that is not null is decoded as its value is. -/
theorem of_child_there {value : Value} (there : value ≠ .null)
    (decoded : Except DecodeError SyntaxTree) : ofChild value decoded = decoded := by
  unfold ofChild
  split
  · exact absurd rfl there
  · rfl

/-- The elements of an array are decoded one by one, under their positions. -/
theorem decode_elements_eq (trail : Trail) (start : Nat) (elements : List Value) :
    decodeElements trail start elements =
      (elements.mapIdx fun index child => (toString (start + index), child)).map
        (candidate trail) := by
  induction elements generalizing start with
  | nil => rfl
  | cons child rest inductionHypothesis =>
    rw [decodeElements, inductionHypothesis, List.mapIdx_cons, List.map_cons]
    simp only [candidate, Nat.add_zero, Nat.add_assoc, Nat.add_comm 1]

/-- A child is looked up among the decoded children as it is among the entries. -/
theorem lookup_candidate (trail : Trail) (entries : List (String × Value)) (relation : String) :
    (entries.map (candidate trail)).lookup relation =
      (entries.lookup relation).map fun child => (candidate trail (relation, child)).2 := by
  induction entries with
  | nil => rfl
  | cons entry rest inductionHypothesis =>
    obtain ⟨present, child⟩ := entry
    by_cases same : relation = present
    · subst same
      simp [candidate]
    · have unlike : (relation == present) = false := beq_eq_false_iff_ne.mpr same
      simp [candidate, List.lookup_cons, unlike, inductionHypothesis]

/-- Listed keys that are all there are followed. -/
theorem rearrange_known (trail : Trail)
    (known : ∀ relation ∈ relations, relation ∈ entries.map Prod.fst) :
    rearrange trail (entries.map (candidate trail)) (relations.map .string) =
      .ok ((listedFirst relations entries).map (candidate trail)) := by
  let listed := relations.filterMap fun relation =>
    (entries.lookup relation).map fun child => (relation, child)
  have keys : listed.map Prod.fst = relations := listed_keys known
  have mentions : relations.map Value.string =
      (listed.map (candidate trail)).map fun chosen => .string chosen.1 := by
    rw [← keys]
    simp [candidate, Function.comp_def]
  have reached (entry : String × Value) :
      ((listed.map (candidate trail)).any fun chosen => chosen.1 = entry.1) = true ↔
        entry.1 ∈ relations := by
    simp only [← keys, List.any_map, List.any_eq_true, Function.comp_apply, decide_eq_true_eq,
      List.mem_map]
    exact Iff.rfl
  have others : (entries.map (candidate trail)).filter (fun decoded =>
      !(listed.map (candidate trail)).any fun chosen => chosen.1 = decoded.1) =
        (entries.filter fun entry => entry.1 ∉ relations).map (candidate trail) := by
    rw [List.filter_map]
    refine congrArg (List.map (candidate trail)) (List.filter_congr fun entry _ => ?_)
    rw [Bool.eq_iff_iff, decide_eq_true_eq, ← reached entry, Bool.not_eq_true]
    exact Bool.not_eq_true' _ ▸ Iff.rfl
  rw [listedFirst, List.map_append, ← others, rearrange, mentions]
  refine bind_ok.mpr ⟨listed.map (candidate trail), map_back fun chosen member => ?_, rfl⟩
  obtain ⟨entry, entryListed, rfl⟩ := List.mem_map.mp member
  obtain ⟨relation, _, looked⟩ := List.mem_filterMap.mp entryListed
  obtain ⟨child, found, rfl⟩ := Option.map_eq_some_iff.mp looked
  simp only [candidate, lookup_candidate, found, Option.map_some]

/-- An order that can be followed lists strings, all of them keys of the children. -/
theorem known_of_rearranged {order : List Value} {ordered : List Candidate}
    (arranged : rearrange trail (entries.map (candidate trail)) order = .ok ordered) :
    ∃ relations : List String, order = relations.map .string ∧
      ∀ relation ∈ relations, relation ∈ entries.map Prod.fst := by
  obtain ⟨listed, followed, _⟩ := bind_ok.mp arranged
  have each (mention : Value) (member : mention ∈ order) :
      ∃ relation, mention = .string relation ∧ relation ∈ entries.map Prod.fst := by
    obtain ⟨chosen, passed⟩ := map_ok_each followed member
    split at passed
    · next relation =>
      refine ⟨relation, rfl, ?_⟩
      rw [lookup_candidate] at passed
      cases found : entries.lookup relation with
      | none =>
        rw [found] at passed
        cases passed
      | some child => exact List.mem_map_of_mem (mem_of_looked_up found)
    · cases passed
  refine ⟨order.filterMap textOf?, (strings_of_texts fun mention member => ?_).symm, ?_⟩
  · obtain ⟨relation, same, _⟩ := each mention member
    exact ⟨relation, same⟩
  · intro relation listed
    obtain ⟨mention, member, text⟩ := List.mem_filterMap.mp listed
    obtain ⟨_, rfl, present⟩ := each mention member
    obtain rfl := Option.some.inj text
    exact present

/-- Whether the children of an object can be put in order: there are none, or they are an array, or
an object whose order, if there is one, lists keys of theirs. -/
inductive Arranged (fields : List (String × Value)) : Prop where
  | none (missing : Missing fields .children)
  | listed {elements : List Value}
    (found : fields.lookup Field.children.name = some (.array elements))
  | keyed {entries : List (String × Value)}
    (found : fields.lookup Field.children.name = some (.object entries))
    (order : OrderKnown fields entries)

/-- The order of the children is known if it is missing or lists strings that are keys of theirs. -/
theorem order_known_iff : OrderKnown fields entries ↔ Missing fields .childrenOrder ∨
    ∃ relations : List String,
      fields.lookup Field.childrenOrder.name = some (.array (relations.map .string)) ∧
        ∀ relation ∈ relations, relation ∈ entries.map Prod.fst := by
  constructor
  · rintro ⟨missing | ⟨_, found, relations, rfl⟩, known⟩
    · exact .inl missing
    · rw [listedKeys, found] at known
      exact .inr ⟨relations, found, by simpa only [texts_of_strings] using known⟩
  · rintro (missing | ⟨relations, found, known⟩)
    · refine ⟨.inl missing, fun relation listed => ?_⟩
      rcases missing with absent | null
      · simp [listedKeys, absent] at listed
      · simp [listedKeys, null] at listed
    · refine ⟨.inr ⟨_, found, relations, rfl⟩, ?_⟩
      simpa only [listedKeys, found, texts_of_strings] using known

/-- Children that can be put in order are put in the order of the tree. -/
theorem arrange_arranged (trail : Trail) (arranged : Arranged fields) :
    arrange trail fields (candidatesAmong trail fields) =
      .ok ((orderedChildren fields).map (candidate trail)) := by
  rw [candidates_among_eq]
  cases arranged with
  | none missing =>
    rcases missing with absent | null
    · simp only [orderedChildren, absent, arrange, List.map_nil]
    · simp only [orderedChildren, null, candidatesOf, arrange, List.map_nil]
  | listed found =>
    simp only [orderedChildren, found, candidatesOf, arrange, decode_elements_eq, Nat.zero_add]
  | @keyed entries found order =>
    have decoded : decodeEntries trail entries = entries.map (candidate trail) :=
      decode_entries_eq trail entries
    simp only [orderedChildren, found, candidatesOf, decoded]
    rcases order_known_iff.mp order with (absent | null) | ⟨relations, listed, known⟩
    · simp [arrange, absent, listedKeys, listedFirst]
    · simp [arrange, null, listedKeys, listedFirst]
    · simp only [arrange, listed, listedKeys, texts_of_strings]
      exact rearrange_known trail known

/-- Only children that can be put in order are. -/
theorem arranged_of_ok {ordered : List Candidate}
    (done : arrange trail fields (candidatesAmong trail fields) = .ok ordered) :
    Arranged fields := by
  rw [candidates_among_eq] at done
  cases found : fields.lookup Field.children.name with
  | none => exact .none (.inl found)
  | some value =>
    rw [found] at done
    cases value with
    | null => exact .none (.inr found)
    | array elements => exact .listed found
    | object entries =>
      have decoded : decodeEntries trail entries = entries.map (candidate trail) :=
        decode_entries_eq trail entries
      simp only [candidatesOf, decoded, arrange] at done
      refine .keyed found (order_known_iff.mpr ?_)
      split at done
      · next absent => exact .inl (.inl absent)
      · next null => exact .inl (.inr null)
      · next order listed =>
        obtain ⟨relations, rfl, known⟩ := known_of_rearranged done
        exact .inr ⟨relations, listed, known⟩
      · cases done
    | bool | number | string => cases done

/-- Collected branches are the children, each of which has been decoded. -/
theorem candidates_of_collected {taken : List String} {candidates : List Candidate}
    {branches : List (String × SyntaxTree)}
    (collected : collect trail taken candidates = .ok branches) :
    candidates = branches.map fun branch => (branch.1, .ok branch.2) := by
  induction candidates generalizing taken branches with
  | nil =>
    obtain rfl : [] = branches := Except.ok.inj collected
    rfl
  | cons first rest inductionHypothesis =>
    obtain ⟨relation, child⟩ := first
    obtain ⟨tree, rfl, kept⟩ := bind_ok.mp collected
    split at kept
    · cases kept
    · obtain ⟨further, restCollected, same⟩ := bind_ok.mp kept
      obtain rfl : (relation, tree) :: further = branches := Except.ok.inj same
      rw [List.map_cons, ← inductionHypothesis restCollected]

/-- An object decodes as a node over branches exactly if its own fields decode as the node, its
children can be put in order, each of them decodes as its branch, and no two keys are the same. -/
theorem decode_object_ok {top : Node} {branches : List (String × SyntaxTree)} :
    decodeAt trail (.object fields) = .ok (.node top branches) ↔
      (Carries fields top ∧ top.kind ≠ "" ∧ top.EndsFit) ∧ Arranged fields ∧
        (orderedChildren fields).map (candidate trail) =
          branches.map (fun branch => (branch.1, .ok branch.2)) ∧
        (branches.map Prod.fst).Nodup := by
  rw [decodeAt, ← @decode_fields_ok trail]
  constructor
  · intro decoded
    obtain ⟨node, own, decoded⟩ := bind_ok.mp decoded
    obtain ⟨ordered, done, decoded⟩ := bind_ok.mp decoded
    obtain ⟨below, collected, same⟩ := bind_ok.mp decoded
    obtain ⟨rfl, rfl⟩ := Tree.node.inj (Except.ok.inj same)
    have arranged := arranged_of_ok done
    obtain rfl := Except.ok.inj ((arrange_arranged trail arranged).symm.trans done)
    exact ⟨own, arranged, candidates_of_collected collected, (collect_branches collected).1⟩
  · rintro ⟨own, arranged, each, differ⟩
    have collected := collect_decoded trail [] branches differ (by simp)
    rw [← each] at collected
    refine bind_ok.mpr ⟨top, own, ?_⟩
    refine bind_ok.mpr ⟨_, arrange_arranged trail arranged, ?_⟩
    exact bind_ok.mpr ⟨branches, collected, rfl⟩

/-- A child that has been decoded as a branch is null, and the branch a placeholder, or its value
decodes as the tree of the branch. -/
theorem decoded_child {entry : String × Value} {branch : String × SyntaxTree}
    (same : candidate trail entry = (branch.1, .ok branch.2)) :
    entry.1 = branch.1 ∧
      (entry.2 = .null ∧ branch.2 = .leaf Node.placeholder ∨
        entry.2 ≠ .null ∧ decodeAt (trail ++ [entry.1]) entry.2 = .ok branch.2) := by
  have decoded := congrArg Prod.snd same
  refine ⟨congrArg Prod.fst same, ?_⟩
  by_cases null : entry.2 = .null
  · rw [candidate, null] at decoded
    exact .inl ⟨null, (Except.ok.inj decoded).symm⟩
  · simp only [candidate, of_child_there null] at decoded
    exact .inr ⟨null, decoded⟩

/-- Every branch has been decoded from a child. -/
theorem child_of_branch {branches : List (String × SyntaxTree)}
    (each : (orderedChildren fields).map (candidate trail) =
      branches.map fun branch => (branch.1, .ok branch.2))
    {branch : String × SyntaxTree} (member : branch ∈ branches) :
    ∃ entry ∈ orderedChildren fields, candidate trail entry = (branch.1, .ok branch.2) := by
  have decoded : (branch.1, .ok branch.2) ∈ (orderedChildren fields).map (candidate trail) :=
    each ▸ List.mem_map_of_mem (f := fun branch => (branch.1, Except.ok branch.2)) member
  exact List.mem_map.mp decoded

end TreeDelta.Exchange
