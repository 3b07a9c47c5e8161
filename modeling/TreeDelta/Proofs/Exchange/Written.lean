import TreeDelta.Proofs.Exchange.RoundTrip
import TreeDelta.Proofs.Json.ReadBack

/-!
# Reading a written tree

A tree that is written is read back in both written forms, unless its text nests more deeply than
the reader admits. A node below the top stands inside two more brackets than its parent, that of the
children and its own, and what it nests is one more: its children, their order, or an end. So it is
the nodes that nest anything that must not stand too deep, and a node that nests nothing may stand
one step deeper, whatever it carries.
-/

namespace TreeDelta.Exchange

open Json (Value Readable)

/-- The keys of all fields that may be written, in order. -/
def fieldNames : List String :=
  [Field.type.name, Field.value.name, Field.id.name, Field.sourceStart.name, Field.sourceEnd.name,
    Field.children.name, Field.childrenOrder.name]

/-- A field is written under its key if it is written. -/
theorem present_names (field : Field) (value? : Option Value) :
    ((presentField field value?).map Prod.fst).Sublist [field.name] := by
  cases value? <;> simp [presentField]

/-- Every field of a node is written once at most. -/
theorem encoded_names_differ (spans : Bool) (top : Node) (branches : List (String × SyntaxTree)) :
    ((encodeFields spans top ++ childFields spans branches).map Prod.fst).Nodup := by
  have children : ((childFields spans branches).map Prod.fst).Sublist
      [Field.children.name, Field.childrenOrder.name] := by
    cases branches <;> simp [childFields]
  have all : ((encodeFields spans top ++ childFields spans branches).map Prod.fst).Sublist
      fieldNames := by
    simp only [encodeFields, List.map_append]
    exact ((((present_names _ _).append (present_names _ _)).append (present_names _ _)).append
      (present_names _ _)).append (present_names _ _) |>.append children
  exact (by decide : fieldNames.Nodup).sublist all

/-- What is written for a field is its value. -/
theorem value_of_present {field : Field} {value? : Option Value} {entry : String × Value}
    (listed : entry ∈ presentField field value?) : value? = some entry.2 := by
  cases value? with
  | none => simp [presentField] at listed
  | some value =>
    rw [List.mem_singleton.mp listed]

/-- What is written of a node beside its children: strings, and ends if they are written. -/
theorem encoded_field {spans : Bool} {top : Node} {entry : String × Value}
    (listed : entry ∈ encodeFields spans top) :
    (∃ text, entry.2 = .string text) ∨ spans = true ∧ ∃ location,
      (top.start? = some location ∨ top.stop? = some location) ∧
        entry.2 = encodeLocation location := by
  simp only [encodeFields, List.mem_append] at listed
  rcases listed with (((type | value) | id) | start) | stop
  · exact .inl ⟨_, (Option.some.inj (value_of_present type)).symm⟩
  · obtain ⟨text, _, same⟩ := Option.map_eq_some_iff.mp (value_of_present value)
    exact .inl ⟨text, same.symm⟩
  · obtain ⟨text, _, same⟩ := Option.map_eq_some_iff.mp (value_of_present id)
    exact .inl ⟨text, same.symm⟩
  · have shown := value_of_present start
    split at shown
    · next spans =>
      obtain ⟨location, carried, same⟩ := Option.map_eq_some_iff.mp shown
      exact .inr ⟨spans, location, .inl carried, same.symm⟩
    · cases shown
  · have shown := value_of_present stop
    split at shown
    · next spans =>
      obtain ⟨location, carried, same⟩ := Option.map_eq_some_iff.mp shown
      exact .inr ⟨spans, location, .inr carried, same.symm⟩
    · cases shown

/-- A location that fits is written as a readable value. -/
theorem location_readable {location : Location} (fits : location.Fits) :
    Readable (encodeLocation location) := by
  have small {coordinate : Nat} (fits : coordinate < Location.bound) :
      coordinate < Json.Numeral.significandBound :=
    fits.trans (by decide)
  refine .array fun element member => ?_
  simp only [List.mem_cons, List.not_mem_nil, or_false] at member
  rcases member with rfl | rfl
  · exact .natural (small fits.1)
  · exact .natural (small fits.2)

/-- A tree with different keys and locations that fit is written as a readable value.

The induction is on the tree. Its own fields are strings and locations; its children are readable by
the induction hypothesis, under keys that differ. -/
theorem encode_readable (spans : Bool) (tree : SyntaxTree) (differ : tree.KeysDiffer)
    (fit : ∀ node ∈ tree.preorder, node.EndsFit) : Readable (encode spans tree) := by
  induction tree using Tree.induct with
  | node top branches inductionHypothesis =>
    simp only [Tree.preorder, Tree.preorderBranches_eq, List.mem_cons, List.mem_flatMap] at fit
    obtain ⟨topDiffer, differ⟩ := (Tree.keys_differ_node top branches).mp differ
    rw [encode_node]
    refine .object (encoded_names_differ spans top branches) fun entry listed => ?_
    rcases List.mem_append.mp listed with own | below
    · obtain ⟨text, same⟩ | ⟨_, location, carried | carried, same⟩ := encoded_field own
      · exact same ▸ .string text
      · exact same ▸ location_readable ((fit top (.inl rfl)).1 location carried)
      · exact same ▸ location_readable ((fit top (.inl rfl)).2 location carried)
    · unfold childFields at below
      split at below
      · cases below
      · simp only [List.mem_cons, List.not_mem_nil, or_false] at below
        rcases below with rfl | rfl
        · refine .object ?_ fun field member => ?_
          · rw [encode_branches_eq, List.map_map]
            exact topDiffer
          · rw [encode_branches_eq] at member
            obtain ⟨branch, branchMember, rfl⟩ := List.mem_map.mp member
            simp only
            split
            · exact .null
            · exact inductionHypothesis branch branchMember (differ branch branchMember)
                fun node inside => fit node (.inr ⟨branch, branchMember, inside⟩)
        · refine .array fun element member => ?_
          obtain ⟨branch, _, rfl⟩ := List.mem_map.mp member
          exact .string branch.1

/-! ### How deeply a written tree nests -/

/-- Whether a node is written with containers inside its own: with children, or with an end. -/
def Nests (spans : Bool) (tree : SyntaxTree) : Prop :=
  tree.branches ≠ [] ∨ spans = true ∧ (tree.label.start?.isSome ∨ tree.label.stop?.isSome)

/-- An end takes one container, everything else that is written of a node beside its children takes
none. -/
theorem own_nesting (spans : Bool) (top : Node) (bound : Nat) :
    (∀ entry ∈ encodeFields spans top, entry.2.nesting ≤ bound) ↔
      (spans = true ∧ (top.start?.isSome ∨ top.stop?.isSome) → 0 < bound) := by
  constructor
  · rintro within ⟨rfl, ends⟩
    -- An end is an array of two numbers, so one bound for its nesting is a bound above zero.
    have one {location : Location} (fits : (encodeLocation location).nesting ≤ bound) :
        0 < bound := fits
    rcases ends with start | stop
    · obtain ⟨location, found⟩ := Option.isSome_iff_exists.mp start
      have written : (Field.sourceStart.name, encodeLocation location) ∈ encodeFields true top := by
        simp [encodeFields, presentField, found]
      exact one (within _ written)
    · obtain ⟨location, found⟩ := Option.isSome_iff_exists.mp stop
      have written : (Field.sourceEnd.name, encodeLocation location) ∈ encodeFields true top := by
        simp [encodeFields, presentField, found]
      exact one (within _ written)
  · intro room entry listed
    obtain ⟨text, same⟩ | ⟨rfl, location, carried, same⟩ := encoded_field listed
    · rw [same]
      exact Nat.zero_le bound
    · rw [same]
      refine room ⟨rfl, carried.imp ?_ ?_⟩ <;>
      · intro found
        rw [found]
        rfl

/-- A child that is written as null could as well be written as an object with its type: it would
nest no more than one container. -/
theorem child_nesting (spans : Bool) (tree : SyntaxTree) (bound : Nat) :
    (if isBarePlaceholder tree then Value.null else encode spans tree).nesting ≤ 2 * bound + 1 ↔
      (encode spans tree).nesting ≤ 2 * bound + 1 := by
  split
  · next bare =>
    have one : (encode spans tree).nesting ≤ 1 := by
      obtain ⟨top, branches⟩ := tree
      simp only [isBarePlaceholder, Bool.and_eq_true, decide_eq_true_eq, List.isEmpty_iff] at bare
      obtain ⟨rfl, rfl⟩ : top = Node.placeholder ∧ branches = [] := bare
      cases spans <;> decide
    exact ⟨fun _ => by omega, fun _ => Nat.zero_le _⟩
  · rfl

/-- The children of a node take one container, and each of them what it takes alone. -/
theorem children_nesting (spans : Bool) (branches : List (String × SyntaxTree)) (bound : Nat) :
    (∀ entry ∈ childFields spans branches, entry.2.nesting ≤ 2 * bound) ↔
      (branches ≠ [] → 0 < bound) ∧
        ∀ branch ∈ branches, (encode spans branch.2).nesting ≤ 2 * (bound - 1) + 1 := by
  cases empty : branches.isEmpty with
  | true =>
    obtain rfl := List.isEmpty_iff.mp empty
    simp [childFields]
  | false =>
    have filled : branches ≠ [] := by simpa [List.isEmpty_iff] using empty
    have order : (Value.array (branches.map fun branch => .string branch.1)).nesting ≤ 1 := by
      rw [Value.nesting, Nat.add_le_add_iff_right, Value.nesting_elements_le]
      intro element member
      obtain ⟨branch, _, rfl⟩ := List.mem_map.mp member
      exact Nat.zero_le _
    have children : Value.nestingFields (encodeBranches spans branches) ≤ 2 * (bound - 1) + 1 ↔
        ∀ branch ∈ branches, (encode spans branch.2).nesting ≤ 2 * (bound - 1) + 1 := by
      rw [Value.nesting_fields_le, encode_branches_eq, List.forall_mem_map]
      exact forall₂_congr fun branch _ => child_nesting spans branch.2 (bound - 1)
    rw [← children]
    simp only [childFields, empty, Bool.false_eq_true, ↓reduceIte, List.forall_mem_cons,
      List.not_mem_nil, false_imp_iff, implies_true, and_true, Value.nesting] at order ⊢
    constructor
    · rintro ⟨below, _⟩
      exact ⟨fun _ => by omega, by omega⟩
    · rintro ⟨room, below⟩
      have positive := room filled
      exact ⟨by omega, by omega⟩

/-- The text of a tree takes at most one container more than twice a number of levels if what nests
anything in it stands above the last of them.

The induction is on the tree, with the steps above it arbitrary: below a node one level less is
left, and there is one step more above. So the bound on depth stays the same all the way down. -/
theorem encode_nesting (spans : Bool) (tree : SyntaxTree) (levels : Nat)
    (above : List (Step Node)) :
    (encode spans tree).nesting ≤ 2 * levels + 1 ↔
      ∀ place ∈ Place.preorderFrom above tree, Nests spans place.tree →
        place.depth < above.length + levels := by
  induction tree using Tree.induct generalizing levels above with
  | node top branches inductionHypothesis =>
    have here : (∀ entry ∈ encodeFields spans top ++ childFields spans branches,
        entry.2.nesting ≤ 2 * levels) ↔ (Nests spans (.node top branches) → 0 < levels) ∧
          ∀ branch ∈ branches, (encode spans branch.2).nesting ≤ 2 * (levels - 1) + 1 := by
      rw [List.forall_mem_append, own_nesting, children_nesting]
      have double : 0 < 2 * levels ↔ 0 < levels := by omega
      simp only [Nests, Tree.branches_node, Tree.label_node, or_imp, double]
      exact ⟨fun ⟨ends, filled, below⟩ => ⟨⟨filled, ends⟩, below⟩,
        fun ⟨⟨filled, ends⟩, below⟩ => ⟨ends, filled, below⟩⟩
    rw [encode_node, Value.nesting, Nat.add_le_add_iff_right, Value.nesting_fields_le, here]
    have top_nests {branch : String × SyntaxTree} (member : branch ∈ branches) :
        Nests spans (.node top branches) := .inl (List.ne_nil_of_mem member)
    constructor
    · rintro ⟨room, below⟩ place listed nests
      rcases (Place.mem_preorder_from _ _ _).mp listed with rfl | ⟨index, child, found, inside⟩
      · have positive := room nests
        change above.length < above.length + levels
        omega
      · obtain ⟨branch, member, rfl⟩ := Place.child_of_branch found
        have positive := room (top_nests member)
        have deep := (inductionHypothesis branch member (levels - 1) _).mp (below branch member)
          place inside nests
        rw [List.length_cons] at deep
        omega
    · intro shallow
      have room (nests : Nests spans (.node top branches)) : 0 < levels := by
        have topShallow := shallow _ ((Place.mem_preorder_from _ _ _).mpr (.inl rfl)) nests
        change above.length < above.length + levels at topShallow
        omega
      refine ⟨room, fun branch member => ?_⟩
      obtain ⟨index, found⟩ := List.getElem?_of_mem member
      have child : (Tree.node top branches).children[index]? = some branch.2 := by
        simp [Tree.children, found]
      refine (inductionHypothesis branch member (levels - 1)
        (⟨.node top branches, index⟩ :: above)).mpr fun place inside nests => ?_
      have deep := shallow place
        ((Place.mem_preorder_from _ _ _).mpr (.inr ⟨index, branch.2, child, inside⟩)) nests
      have positive := room (top_nests member)
      rw [List.length_cons]
      omega

/-- Whether no node of a tree nests anything too deep for the reader. -/
def Shallow (spans : Bool) (tree : SyntaxTree) : Prop :=
  ∀ place ∈ (Place.top tree).preorder, Nests spans place.tree → place.depth ≤ 62

/-- What is written for a tree fits into the reader if what nests is shallow. -/
theorem shallow_iff (spans : Bool) (tree : SyntaxTree) :
    (encode spans tree).nesting ≤ Json.nestingLimit ↔ Shallow spans tree := by
  have levels := encode_nesting spans tree 63 []
  simp only [List.length_nil, Nat.zero_add] at levels
  refine levels.trans (forall₂_congr fun place _ => imp_congr_right fun _ => ?_)
  exact Nat.lt_succ_iff

/-- In a well-formed document, the tree below the root can be written and read again in every
written form exactly if what nests anything stands at most 62 steps below the root. Then the result
is the same tree, with its ends if they were written and without them otherwise; if not, the text is
refused as a text.

The written value is readable, so its text is read back if and only if it nests within the limit,
which is what being shallow says. What is read back then is decoded as the tree. -/
theorem parse_write_keeps {document : Document} (wellFormed : document.WellFormed)
    {tree : SyntaxTree} (taken : document.tree? document.root = some tree)
    (kinds : ∀ node ∈ tree.preorder, node.kind ≠ "") (fit : ∀ node ∈ tree.preorder, node.EndsFit)
    (options : WriteOptions) :
    (Shallow options.spans tree →
      ∃ result, parse (write options tree) = .ok result ∧ Kept options.spans tree result) ∧
    (¬ Shallow options.spans tree →
      ∃ error, parse (write options tree) = .error (.text error)) := by
  have differ := wellFormed.tree_keys taken
  have readBack := Json.read_written Json.nestingLimit options.pretty
    (encode_readable options.spans tree differ fit)
  have text : Json.read (write options tree) = _ := readBack
  rw [← shallow_iff]
  constructor
  · intro room
    refine ⟨tree.map (Node.shown options.spans), ?_, kept_shown options.spans tree⟩
    rw [parse, text, if_pos room]
    simp only [decode, decode_encoded options.spans tree [] differ kinds fit]
  · intro tight
    refine ⟨.malformed, ?_⟩
    rw [parse, text, if_neg tight]

/-- A chain of nodes, each the only child of the one before. -/
def chain : Nat → SyntaxTree
  | 0 => .leaf (Node.bare "word")
  | further + 1 => .node (Node.bare "list") [("0", chain further)]

/-- The last node of a chain may stand 63 steps below the root, where it nests nothing, but not 64,
where its parent nests it. -/
theorem chain_at_limit :
    (∃ result, parse (write .plain (chain 63)) = .ok result ∧ Kept false (chain 63) result) ∧
      ∃ error, parse (write .plain (chain 64)) = .error (.text error) := by
  have differ : (chain 63).KeysDiffer ∧ (chain 64).KeysDiffer := by
    unfold Tree.KeysDiffer
    decide +kernel
  have kinds : (∀ node ∈ (chain 63).preorder, node.kind ≠ "") ∧
      ∀ node ∈ (chain 64).preorder, node.kind ≠ "" := by
    decide +kernel
  have fit : (∀ node ∈ (chain 63).preorder, node.EndsFit) ∧
      ∀ node ∈ (chain 64).preorder, node.EndsFit := by
    unfold Node.EndsFit Location.Fits
    decide +kernel
  have limit : Shallow false (chain 63) ∧ ¬ Shallow false (chain 64) := by
    rw [← shallow_iff, ← shallow_iff]
    decide +kernel
  exact ⟨(parse_write_keeps (Document.of_tree_well_formed differ.1) (Document.of_tree_root _)
      kinds.1 fit.1 .plain).1 limit.1,
    (parse_write_keeps (Document.of_tree_well_formed differ.2) (Document.of_tree_root _)
      kinds.2 fit.2 .plain).2 limit.2⟩

end TreeDelta.Exchange
