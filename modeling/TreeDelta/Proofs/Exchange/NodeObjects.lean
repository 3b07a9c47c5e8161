import TreeDelta.Proofs.Exchange.OneLevel
import TreeDelta.Proofs.Json.Admitted

/-!
# Node objects

Which values are trees, and which trees they are, said without a word about decoding. A node object
has own fields of their forms and, unless its children are left out, an array or an object of nulls
and node objects. Only for an object of children an order may be given: different keys of children
there. Its children are then those the order lists, as it lists them, and after them the others, as
they stand.

What is known of one level is carried to all of them: down along the tree that a value decodes as,
and up along the derivation that it is a node object. Both ways the keys of an object must differ,
as they do in whatever has been read: of two children with one key an order would reach only the
first.
-/

namespace TreeDelta.Exchange

open Json (Value)

variable {trail : Trail} {fields entries : List (String × Value)}

/-- The children that an object holds, if it holds them in one of the ways there are: not at all, as
an array, or as an object whose order is missing or lists keys of it, none of them twice. -/
inductive HoldsChildren (fields : List (String × Value)) : List Value → Prop where
  | none (missing : Missing fields .children) : HoldsChildren fields []
  | listed {elements : List Value}
    (found : fields.lookup Field.children.name = some (.array elements)) :
    HoldsChildren fields elements
  | keyed {entries : List (String × Value)}
    (found : fields.lookup Field.children.name = some (.object entries))
    (order : OrderKnown fields entries) (once : (listedKeys fields).Nodup) :
    HoldsChildren fields (entries.map Prod.snd)

/-- The values that are trees: an object whose own fields have their forms and whose children are
nulls and node objects. -/
inductive NodeObject : Value → Prop where
  | object {fields : List (String × Value)} {children : List Value} (own : OwnFields fields)
    (holds : HoldsChildren fields children)
    (each : ∀ child ∈ children, child ≠ .null → NodeObject child) : NodeObject (.object fields)

mutual

/-- Whether a value describes a tree: the top carries what the own fields hold, and the branches are
described by the children in order. -/
inductive Describes : Value → SyntaxTree → Prop where
  | object {fields : List (String × Value)} {top : Node} {branches : List (String × SyntaxTree)}
    (own : Carries fields top)
    (below : List.Forall₂ DescribesBranch (orderedChildren fields) branches) :
    Describes (.object fields) (.node top branches)

/-- Whether a child describes a branch: under the same key, null describes a placeholder that
carries nothing and has no branches. -/
inductive DescribesBranch : String × Value → String × SyntaxTree → Prop where
  | placeholder (relation : String) :
    DescribesBranch (relation, .null) (relation, .leaf Node.placeholder)
  | node (relation : String) {value : Value} {tree : SyntaxTree} (there : value ≠ .null)
    (described : Describes value tree) : DescribesBranch (relation, value) (relation, tree)

end

/-- The children of an object are those that it holds, as long as keys differ. -/
theorem mem_ordered {children : List Value} (holds : HoldsChildren fields children)
    (differ : ∀ entries, fields.lookup Field.children.name = some (.object entries) →
      (entries.map Prod.fst).Nodup) (child : Value) :
    child ∈ children ↔ ∃ entry ∈ orderedChildren fields, entry.2 = child := by
  cases holds with
  | none missing =>
    rcases missing with absent | null
    · simp [orderedChildren, absent]
    · simp [orderedChildren, null]
  | listed found =>
    simp only [orderedChildren, found, List.mem_mapIdx]
    constructor
    · intro member
      obtain ⟨index, inside, rfl⟩ := List.getElem_of_mem member
      exact ⟨_, ⟨index, inside, rfl⟩, rfl⟩
    · rintro ⟨_, ⟨index, inside, rfl⟩, rfl⟩
      exact List.getElem_mem inside
  | keyed found order once =>
    simp only [orderedChildren, found, mem_listed_first (differ _ found), List.mem_map]

/-- The keys of an array of children differ. -/
theorem positions_nodup (elements : List Value) :
    ((elements.mapIdx fun index child => (toString index, child)).map Prod.fst).Nodup := by
  have positions : (elements.mapIdx fun index child => (toString index, child)).map Prod.fst =
      (List.range elements.length).map toString := by
    refine List.ext_getElem (by simp) fun index inside _ => by simp
  rw [positions]
  exact List.nodup_range.map fun _ _ => Named.numerals_differ

/-- The keys of the children that an object holds differ in the order of the tree. -/
theorem ordered_nodup {children : List Value} (holds : HoldsChildren fields children)
    (differ : ∀ entries, fields.lookup Field.children.name = some (.object entries) →
      (entries.map Prod.fst).Nodup) : ((orderedChildren fields).map Prod.fst).Nodup := by
  cases holds with
  | none missing =>
    rcases missing with absent | null
    · simp [orderedChildren, absent]
    · simp [orderedChildren, null]
  | listed found =>
    simp only [orderedChildren, found]
    exact positions_nodup _
  | keyed found order once =>
    simp only [orderedChildren, found]
    exact (listed_first_nodup (differ _ found) order.known).mpr once

/-- In a value whose objects have different keys, so have the children of an object. -/
theorem children_differ (differ : (Value.object fields).KeysDiffer)
    (found : fields.lookup Field.children.name = some (.object entries)) :
    (entries.map Prod.fst).Nodup := by
  cases differ with
  | object _ below =>
    cases below _ (mem_of_looked_up found) with
    | object keys _ => exact keys

/-- In a value whose objects have different keys, so have the children that an object holds. -/
theorem held_differ {children : List Value} (differ : (Value.object fields).KeysDiffer)
    (holds : HoldsChildren fields children) {child : Value} (member : child ∈ children) :
    child.KeysDiffer := by
  cases differ with
  | object _ below =>
    cases holds with
    | none missing => cases member
    | listed found =>
      cases below _ (mem_of_looked_up found) with
      | array each => exact each child member
    | keyed found _ _ =>
      obtain ⟨entry, listed, rfl⟩ := List.mem_map.mp member
      cases below _ (mem_of_looked_up found) with
      | object _ each => exact each entry listed

/-- Children that can be put in order, without listing one twice, are held in one of the ways there
are. -/
theorem holds_of_arranged (differ : (Value.object fields).KeysDiffer) (arranged : Arranged fields)
    (keys : ((orderedChildren fields).map Prod.fst).Nodup) :
    ∃ children, HoldsChildren fields children := by
  cases arranged with
  | none missing => exact ⟨[], .none missing⟩
  | listed found => exact ⟨_, .listed found⟩
  | keyed found order =>
    simp only [orderedChildren, found] at keys
    have once := (listed_first_nodup (children_differ differ found) order.known).mp keys
    exact ⟨_, .keyed found order once⟩

/-- Children that are held in one of the ways there are can be put in order. -/
theorem HoldsChildren.arranged {children : List Value} (holds : HoldsChildren fields children) :
    Arranged fields := by
  cases holds with
  | none missing => exact .none missing
  | listed found => exact .listed found
  | keyed found order _ => exact .keyed found order

/-- What decodes as a tree is a node object that describes the tree.

The induction is on the tree, one entry of the ordered children for each branch. Decoding a branch
says by induction that its entry is a node object and describes it. That the order holds follows
from the keys of the branches, which are distinct. -/
theorem node_object_of_decoded {value : Value} {tree : SyntaxTree} (differ : value.KeysDiffer)
    (decoded : decodeAt trail value = .ok tree) : NodeObject value ∧ Describes value tree := by
  induction tree using Tree.induct generalizing trail value with
  | node top branches inductionHypothesis =>
    cases value with
    | object fields =>
      obtain ⟨own, arranged, each, branchKeys⟩ := decode_object_ok.mp decoded
      have keys : (orderedChildren fields).map Prod.fst = branches.map Prod.fst := by
        simpa [candidate, Function.comp_def] using congrArg (List.map Prod.fst) each
      have paired : List.Forall₂ (fun entry branch =>
          candidate trail entry = (branch.1, .ok branch.2)) (orderedChildren fields) branches := by
        rw [← List.forall₂_map_right_iff, ← List.forall₂_map_left_iff, List.forall₂_eq_eq_eq]
        exact each
      -- Nothing looks for a key that is listed twice; it shows in the keys of the branches.
      obtain ⟨children, holds⟩ := holds_of_arranged differ arranged (keys ▸ branchKeys)
      have members := mem_ordered holds fun entries found => children_differ differ found
      have below (entry : String × Value) (listed : entry ∈ orderedChildren fields)
          (branch : String × SyntaxTree) (member : branch ∈ branches)
          (decodedThere : decodeAt (trail ++ [entry.1]) entry.2 = .ok branch.2) :
          NodeObject entry.2 ∧ Describes entry.2 branch.2 := by
        have held := (members entry.2).mpr ⟨entry, listed, rfl⟩
        exact inductionHypothesis branch member (held_differ differ holds held) decodedThere
      constructor
      · refine .object (own_fields_iff.mpr ⟨top, own⟩) holds fun child held there => ?_
        obtain ⟨entry, listed, rfl⟩ := (members child).mp held
        have decodedThere : candidate trail entry ∈
            branches.map fun branch => (branch.1, Except.ok branch.2) :=
          each ▸ List.mem_map_of_mem listed
        obtain ⟨branch, member, same⟩ := List.mem_map.mp decodedThere
        obtain ⟨_, ⟨null, _⟩ | ⟨_, decodedBelow⟩⟩ := decoded_child same.symm
        · exact absurd null there
        · exact (below entry listed branch member decodedBelow).1
      · refine .object own.1 (List.forall₂_iff_zip.mpr ⟨?_, fun {entry branch} inZip => ?_⟩)
        · simpa using congrArg List.length each
        · obtain ⟨listed, member⟩ := List.of_mem_zip inZip
          obtain ⟨key, child⟩ := decoded_child (List.forall₂_zip paired inZip)
          obtain ⟨relation, value⟩ := entry
          obtain ⟨_, tree⟩ := branch
          obtain rfl : relation = _ := key
          rcases child with ⟨rfl, rfl⟩ | ⟨there, decodedBelow⟩
          · exact .placeholder relation
          · exact .node relation there (below _ listed _ member decodedBelow).2
    | null | bool | number | string | array => cases decoded

/-- If each of several children decodes, there are branches that they decode as. -/
theorem branches_of_decoded (trail : Trail) (entries : List (String × Value))
    (each : ∀ entry ∈ entries, ∃ tree, (candidate trail entry).2 = .ok tree) :
    ∃ branches : List (String × SyntaxTree),
      entries.map (candidate trail) = branches.map (fun branch => (branch.1, .ok branch.2)) := by
  induction entries with
  | nil => exact ⟨[], rfl⟩
  | cons entry rest inductionHypothesis =>
    obtain ⟨tree, decoded⟩ := each entry List.mem_cons_self
    obtain ⟨branches, restDecoded⟩ := inductionHypothesis fun other later =>
      each other (List.mem_cons_of_mem entry later)
    refine ⟨(entry.1, tree) :: branches, ?_⟩
    rw [List.map_cons, List.map_cons, restDecoded, ← decoded]
    rfl

/-- A node object decodes as a tree, wherever it stands. -/
theorem decoded_of_node_object {value : Value} (node : NodeObject value)
    (differ : value.KeysDiffer) (trail : Trail) : ∃ tree, decodeAt trail value = .ok tree := by
  induction node generalizing trail with
  | object own holds each inductionHypothesis =>
    have keys := ordered_nodup holds fun entries found => children_differ differ found
    have members := mem_ordered holds fun entries found => children_differ differ found
    obtain ⟨top, own⟩ := own_fields_iff.mp own
    obtain ⟨branches, decoded⟩ := branches_of_decoded trail (orderedChildren _)
      fun entry listed => by
        by_cases null : entry.2 = .null
        · refine ⟨.leaf Node.placeholder, ?_⟩
          rw [candidate, null]
          rfl
        · have held := (members entry.2).mpr ⟨entry, listed, rfl⟩
          obtain ⟨tree, decoded⟩ := inductionHypothesis entry.2 held null
            (held_differ differ holds held) (trail ++ [entry.1])
          exact ⟨tree, (of_child_there null _).trans decoded⟩
    have branchKeys : (branches.map Prod.fst).Nodup := by
      have same := congrArg (List.map Prod.fst) decoded
      simp only [List.map_map, Function.comp_def, candidate] at same
      exact same ▸ keys
    exact ⟨.node top branches, decode_object_ok.mpr ⟨own, holds.arranged, decoded, branchKeys⟩⟩

/-- An object without the order of its children. -/
def withoutOrder (fields : List (String × Value)) : List (String × Value) :=
  fields.filter fun field => field.1 ≠ Field.childrenOrder.name

/-- The other fields are not lost with the order of the children. -/
theorem lookup_without_order (fields : List (String × Value)) {field : Field}
    (other : field ≠ .childrenOrder) :
    (withoutOrder fields).lookup field.name = fields.lookup field.name := by
  induction fields with
  | nil => rfl
  | cons entry rest inductionHypothesis =>
    obtain ⟨key, value⟩ := entry
    by_cases order : key = Field.childrenOrder.name
    · have unlike : (field.name == key) = false :=
        beq_eq_false_iff_ne.mpr fun same => other (field_name_injective (same.trans order))
      rw [withoutOrder, List.filter_cons_of_neg (by simpa using order), List.lookup_cons, unlike]
      exact inductionHypothesis
    · rw [withoutOrder, List.filter_cons_of_pos (by simpa using order), List.lookup_cons,
        List.lookup_cons]
      rw [withoutOrder] at inductionHypothesis
      rw [inductionHypothesis]

/-- The order of the children is not read unless they are an object. -/
theorem decode_without_order (trail : Trail) (fields : List (String × Value))
    (plain : ∀ entries, fields.lookup Field.children.name ≠ some (.object entries)) :
    decodeAt trail (.object (withoutOrder fields)) = decodeAt trail (.object fields) := by
  have found {field : Field} (other : field ≠ .childrenOrder) := lookup_without_order fields other
  have own : decodeFields trail (withoutOrder fields) = decodeFields trail fields := by
    simp only [decodeFields, requiredKind, optionalString, optionalLocation, found, ne_eq,
      reduceCtorEq, not_false_eq_true]
  have children :
      arrange trail (withoutOrder fields) (candidatesAmong trail (withoutOrder fields)) =
        arrange trail fields (candidatesAmong trail fields) := by
    rw [candidates_among_eq, candidates_among_eq, found (by decide)]
    cases held : fields.lookup Field.children.name with
    | none => rfl
    | some value =>
      cases value with
      | object entries => exact absurd held (plain entries)
      | null | bool | number | string | array => rfl
  rw [decodeAt, decodeAt, own, children]

/-- A value decodes exactly if it is a node object, and then as a tree that it describes. The order
of the children is not read unless they are an object. -/
theorem decodes_iff_node_object (value : Value) (differ : value.KeysDiffer) :
    ((∃ tree, decode value = .ok tree) ↔ NodeObject value) ∧
      (∀ tree, decode value = .ok tree → Describes value tree) ∧
      ∀ trail fields, (∀ entries, fields.lookup Field.children.name ≠ some (.object entries)) →
        decodeAt trail (.object (withoutOrder fields)) = decodeAt trail (.object fields) := by
  refine ⟨⟨?_, fun node => decoded_of_node_object node differ []⟩, ?_, decode_without_order⟩
  · rintro ⟨tree, decoded⟩
    exact (node_object_of_decoded differ decoded).1
  · exact fun tree decoded => (node_object_of_decoded differ decoded).2

/-- A node with two children, null and a word, whose order lists the word only. -/
def partlyOrdered : Value :=
  .object
    [("type", .string "list"), ("childrenOrder", .array [.string "second"]),
      ("children", .object [("first", .null), ("second", .object [("type", .string "word")])])]

/-- The child that is listed comes first, and behind it null as a placeholder. -/
theorem partly_ordered_decodes :
    partlyOrdered.KeysDiffer ∧ NodeObject partlyOrdered ∧
      Describes partlyOrdered
        (.node (Node.bare "list")
          [("second", .leaf (Node.bare "word")), ("first", .leaf Node.placeholder)]) := by
  have word : (Value.object [("type", .string "word")]).KeysDiffer :=
    .object (by decide) (by simpa using Value.KeysDiffer.string "word")
  have children : (Value.object
      [("first", .null), ("second", .object [("type", .string "word")])]).KeysDiffer :=
    .object (by decide) (by simpa using ⟨Value.KeysDiffer.null, word⟩)
  have order : (Value.array [.string "second"]).KeysDiffer :=
    .array (by simpa using Value.KeysDiffer.string "second")
  have differ : partlyOrdered.KeysDiffer :=
    .object (by decide) (by simpa using ⟨Value.KeysDiffer.string "list", order, children⟩)
  have decoded : decode partlyOrdered = .ok (.node (Node.bare "list")
      [("second", .leaf (Node.bare "word")), ("first", .leaf Node.placeholder)]) := by
    rfl
  obtain ⟨exactly, described, _⟩ := decodes_iff_node_object partlyOrdered differ
  exact ⟨differ, exactly.mp ⟨_, decoded⟩, described _ decoded⟩

end TreeDelta.Exchange
