import TreeDelta.Exchange.Encode
import TreeDelta.Proofs.Document.Numbered
import TreeDelta.Proofs.Exchange.DecodedKeys
import TreeDelta.Tree.Comparison

/-!
# Decoding what has been encoded

What a tree is encoded as is decoded as the same tree, with its ends if they were written and
without them otherwise. A field that is left out is read as absent, a child that is written as null
as a bare placeholder, and since every key is listed once in the order of the branches, the listed
order is the order in which the children stand.
-/

namespace TreeDelta.Exchange

open Json (Value)

/-- Different fields have different keys. -/
theorem field_name_injective {first second : Field} (same : first.name = second.name) :
    first = second := by
  cases first <;> cases second <;> first | rfl | simp [Field.name] at same

/-- A field that is present is found under its key. -/
theorem lookup_present (field : Field) (value? : Option Value) (rest : List (String × Value)) :
    (presentField field value? ++ rest).lookup field.name =
      value?.or (rest.lookup field.name) := by
  cases value? <;> simp [presentField]

/-- A field is not found under another key. -/
theorem lookup_other {field other : Field} (different : other ≠ field) (value? : Option Value)
    (rest : List (String × Value)) :
    (presentField field value? ++ rest).lookup other.name = rest.lookup other.name := by
  have unlike : (other.name == field.name) = false :=
    beq_eq_false_iff_ne.mpr fun same => different (field_name_injective same)
  cases value? <;> simp [presentField, List.lookup_cons, unlike]

/-- The fields of the children of a node. -/
def childFields (spans : Bool) (branches : List (String × SyntaxTree)) : List (String × Value) :=
  if branches.isEmpty then []
  else
    [(Field.children.name, .object (encodeBranches spans branches)),
      (Field.childrenOrder.name, .array (branches.map fun branch => .string branch.1))]

/-- A node is encoded as its own fields and those of its children. -/
theorem encode_node (spans : Bool) (top : Node) (branches : List (String × SyntaxTree)) :
    encode spans (.node top branches) =
      .object (encodeFields spans top ++ childFields spans branches) := by
  rw [encode]
  rfl

/-- What a node has under the key of a field. -/
def encodedField (spans : Bool) (node : Node) : Field → Option Value
  | .type => some (.string node.kind)
  | .value => node.value?.map .string
  | .id => node.id?.map .string
  | .sourceStart => if spans then node.start?.map encodeLocation else none
  | .sourceEnd => if spans then node.stop?.map encodeLocation else none
  | .children | .childrenOrder => none

/-- The fields of a node hold what the node carries, whatever comes behind them. -/
theorem lookup_encoded (spans : Bool) (node : Node) (field : Field)
    (rest : List (String × Value)) :
    (encodeFields spans node ++ rest).lookup field.name =
      (encodedField spans node field).or (rest.lookup field.name) := by
  cases field <;> simp [encodeFields, encodedField, lookup_present, lookup_other]

/-- The fields of the children hold the children and their order, if there are any. -/
theorem lookup_child_fields (spans : Bool) (branches : List (String × SyntaxTree)) (field : Field) :
    (childFields spans branches).lookup field.name =
      match field with
      | .children =>
        if branches.isEmpty then none else some (.object (encodeBranches spans branches))
      | .childrenOrder =>
        if branches.isEmpty then none
        else some (.array (branches.map fun branch => .string branch.1))
      | _ => none := by
  unfold childFields
  cases branches <;> cases field <;> rfl

/-- The children of an object are those under the key of the children. -/
theorem candidates_among_eq (trail : Trail) (fields : List (String × Value)) :
    candidatesAmong trail fields =
      match fields.lookup Field.children.name with
      | none => .none
      | some value => candidatesOf trail value := by
  induction fields with
  | nil => rfl
  | cons field rest inductionHypothesis =>
    obtain ⟨key, value⟩ := field
    rw [candidatesAmong]
    split
    · next same => simp [same]
    · next different =>
      have unlike : (Field.children.name == key) = false :=
        beq_eq_false_iff_ne.mpr (Ne.symm different)
      rw [inductionHypothesis, List.lookup_cons, unlike]

/-- The children of an object are decoded one by one. -/
theorem decode_entries_eq (trail : Trail) (entries : List (String × Value)) :
    decodeEntries trail entries = entries.map fun entry =>
      (entry.1, ofChild entry.2 (decodeAt (trail ++ [entry.1]) entry.2)) := by
  induction entries with
  | nil => rfl
  | cons entry rest inductionHypothesis => simp [decodeEntries, inductionHypothesis]

/-- Branches are encoded one by one. -/
theorem encode_branches_eq (spans : Bool) (branches : List (String × SyntaxTree)) :
    encodeBranches spans branches = branches.map fun branch =>
      (branch.1, if isBarePlaceholder branch.2 then .null else encode spans branch.2) := by
  induction branches with
  | nil => rfl
  | cons branch rest inductionHypothesis => simp [encodeBranches, inductionHypothesis]

end TreeDelta.Exchange

namespace TreeDelta

/-- Whether both numbers of a location are below their bound, so that it can be read back. -/
def Location.Fits (location : Location) : Prop := location.line < bound ∧ location.column < bound

namespace Node

/-- The two ends that a node carries. -/
def ends (node : Node) : Option Location × Option Location := (node.start?, node.stop?)

/-- Whether the ends of a node can be read back. -/
def EndsFit (node : Node) : Prop :=
  (∀ start ∈ node.start?, start.Fits) ∧ ∀ stop ∈ node.stop?, stop.Fits

/-- What is written of a node: everything, or everything but its ends. -/
def shown (spans : Bool) (node : Node) : Node :=
  if spans then node else { node with start? := none, stop? := none }

end Node

namespace Exchange

open Json (Value)

/-- A location that fits is read back. -/
theorem location_encoded {location : Location} (fits : location.Fits) :
    location? (encodeLocation location) = some location := by
  simp [location?, encodeLocation, Location.coordinate?, Value.natural, Json.Number.natural?,
    Option.filter, fits.1, fits.2]

/-- A location that is written on request is read back where it was written. -/
theorem optional_location_encoded {trail : Trail} {fields : List (String × Value)} {field : Field}
    {location? : Option Location} (fits : ∀ location ∈ location?, location.Fits)
    (found : fields.lookup field.name = location?.map encodeLocation) :
    optionalLocation trail fields field = .ok location? := by
  cases location? with
  | none => rw [optionalLocation, found, Option.map_none]
  | some location =>
    have readBack := location_encoded (fits location rfl)
    rw [optionalLocation, found]
    simp only [Option.map_some, encodeLocation] at readBack ⊢
    rw [readBack]

/-- A string that is there is read back where it was written. -/
theorem optional_string_encoded {trail : Trail} {fields : List (String × Value)} {field : Field}
    {text? : Option String} (found : fields.lookup field.name = text?.map .string) :
    optionalString trail fields field = .ok text? := by
  cases text? <;> rw [optionalString, found] <;> rfl

/-- The fields of a node are decoded as what was written of it.

Each field is looked up among the written ones and is found with the value that was written for it,
or not at all. -/
theorem decode_fields_encoded (trail : Trail) (spans : Bool) {top : Node} (kind : top.kind ≠ "")
    (fit : top.EndsFit) (branches : List (String × SyntaxTree)) :
    decodeFields trail (encodeFields spans top ++ childFields spans branches) =
      .ok (top.shown spans) := by
  have found (field : Field) := lookup_encoded spans top field (childFields spans branches)
  simp only [lookup_child_fields] at found
  have typeRead : requiredKind trail (encodeFields spans top ++ childFields spans branches) =
      .ok top.kind := by
    rw [requiredKind, found]
    simp [encodedField, kind]
  have valueRead : optionalString trail (encodeFields spans top ++ childFields spans branches)
      .value = .ok top.value? :=
    optional_string_encoded ((found .value).trans Option.or_none)
  have idRead : optionalString trail (encodeFields spans top ++ childFields spans branches) .id =
      .ok top.id? :=
    optional_string_encoded ((found .id).trans Option.or_none)
  have startRead : optionalLocation trail (encodeFields spans top ++ childFields spans branches)
      .sourceStart = .ok (top.shown spans).start? := by
    refine optional_location_encoded (fun location there => ?_) ?_
    · cases spans
      · cases there
      · exact fit.1 location there
    · rw [found]
      cases spans <;> simp [encodedField, Node.shown]
  have stopRead : optionalLocation trail (encodeFields spans top ++ childFields spans branches)
      .sourceEnd = .ok (top.shown spans).stop? := by
    refine optional_location_encoded (fun location there => ?_) ?_
    · cases spans
      · cases there
      · exact fit.2 location there
    · rw [found]
      cases spans <;> simp [encodedField, Node.shown]
  rw [decodeFields, typeRead, valueRead, idRead, startRead, stopRead]
  cases spans <;> rfl

/-- If every step gives back what its input was made of, so do all steps together. -/
theorem map_back {ε α β : Type} {make : α → β} {step : β → Except ε α} {members : List α}
    (back : ∀ member ∈ members, step (make member) = .ok member) :
    (members.map make).mapM step = .ok members := by
  induction members with
  | nil => rfl
  | cons first rest inductionHypothesis =>
    have restBack := inductionHypothesis fun member later =>
      back member (List.mem_cons_of_mem first later)
    rw [List.map_cons, List.mapM_cons, back first List.mem_cons_self, restBack]
    rfl

/-- Every listed key leads to its child when keys differ. -/
theorem rearrange_encoded (trail : Trail) {candidates : List Candidate}
    (differ : (candidates.map Prod.fst).Nodup) :
    rearrange trail candidates (candidates.map fun candidate => .string candidate.1) =
      .ok candidates := by
  have noneLeft : candidates.filter (fun candidate =>
      !candidates.any fun chosen => chosen.1 = candidate.1) = [] := by
    refine List.filter_eq_nil_iff.mpr fun candidate member => ?_
    simpa using ⟨candidate.2, member⟩
  rw [rearrange]
  refine bind_ok.mpr ⟨candidates, map_back fun candidate member => ?_, ?_⟩
  · simp [Named.lookup_named differ member]
  · simp only [noneLeft, List.append_nil]
    rfl

/-- Decoded children with different keys are collected as they are. -/
theorem collect_decoded (trail : Trail) (taken : List String)
    (branches : List (String × SyntaxTree)) (differ : (branches.map Prod.fst).Nodup)
    (free : ∀ branch ∈ branches, branch.1 ∉ taken) :
    collect trail taken (branches.map fun branch => (branch.1, .ok branch.2)) = .ok branches := by
  induction branches generalizing taken with
  | nil => rfl
  | cons branch rest inductionHypothesis =>
    rw [List.map_cons, List.nodup_cons] at differ
    have restFree : ∀ other ∈ rest, other.1 ∉ branch.1 :: taken := fun other member again => by
      rcases List.mem_cons.mp again with same | old
      · exact differ.1 (same ▸ List.mem_map_of_mem member)
      · exact free other (List.mem_cons_of_mem _ member) old
    have collected := inductionHypothesis (branch.1 :: taken) differ.2 restFree
    have unused := free branch List.mem_cons_self
    rw [List.map_cons, collect]
    simp [bind, Except.bind, unused, collected, pure, Except.pure]

/-- A tree that is a bare placeholder is shown as one. -/
theorem bare_placeholder_shown {spans : Bool} {tree : SyntaxTree}
    (bare : isBarePlaceholder tree = true) :
    tree.map (Node.shown spans) = .leaf Node.placeholder := by
  obtain ⟨top, branches⟩ := tree
  simp only [isBarePlaceholder, Bool.and_eq_true, decide_eq_true_eq, List.isEmpty_iff] at bare
  obtain ⟨rfl, rfl⟩ : top = Node.placeholder ∧ branches = [] := bare
  cases spans <;> rfl

/-- A tree that is encoded as a child is never taken for null. -/
theorem of_child_encoded (spans : Bool) (tree : SyntaxTree)
    (decoded : Except DecodeError SyntaxTree) : ofChild (encode spans tree) decoded = decoded := by
  cases tree with
  | node top branches =>
    rw [encode_node]
    rfl

/-- Decoded children are arranged as the branches from which they were encoded, and collected.

Without branches neither field is there. Otherwise the children are decoded as they were written, by
the hypothesis, and are arranged by the written order, which is their own. -/
theorem branches_encoded (trail : Trail) (spans : Bool) (top : Node)
    {branches : List (String × SyntaxTree)} (differ : (branches.map Prod.fst).Nodup)
    (decoded : ∀ branch ∈ branches,
      decodeAt (trail ++ [branch.1]) (encode spans branch.2) =
        .ok (branch.2.map (Node.shown spans))) :
    let fields := encodeFields spans top ++ childFields spans branches
    (arrange trail fields (candidatesAmong trail fields) >>= collect trail []) =
      .ok (branches.map fun branch => (branch.1, branch.2.map (Node.shown spans))) := by
  intro fields
  let shown := branches.map fun branch => (branch.1, branch.2.map (Node.shown spans))
  have keys : shown.map Prod.fst = branches.map Prod.fst := by simp [shown, Function.comp_def]
  cases empty : branches.isEmpty with
  | true =>
    have absent : fields.lookup Field.children.name = none := by
      rw [lookup_encoded, lookup_child_fields]
      simp [encodedField, empty]
    rw [candidates_among_eq, absent, List.isEmpty_iff.mp empty]
    rfl
  | false =>
    have childrenFound : fields.lookup Field.children.name =
        some (.object (encodeBranches spans branches)) := by
      rw [lookup_encoded, lookup_child_fields]
      simp [encodedField, empty]
    let candidates : List Candidate := shown.map fun branch => (branch.1, .ok branch.2)
    have candidateKeys : candidates.map Prod.fst = branches.map Prod.fst := by
      simp [candidates, ← keys, Function.comp_def]
    have orderFound : fields.lookup Field.childrenOrder.name =
        some (.array (candidates.map fun candidate => .string candidate.1)) := by
      rw [lookup_encoded, lookup_child_fields]
      simp [encodedField, empty, candidates, shown, Function.comp_def]
    have children : decodeEntries trail (encodeBranches spans branches) = candidates := by
      rw [decode_entries_eq, encode_branches_eq, List.map_map]
      simp only [candidates, shown, List.map_map]
      refine List.map_congr_left fun branch member => ?_
      simp only [Function.comp_apply, Prod.mk.injEq, true_and]
      split
      · next bare =>
        rw [bare_placeholder_shown bare]
        rfl
      · rw [of_child_encoded, decoded branch member]
    have arranged : arrange trail fields (candidatesAmong trail fields) = .ok candidates := by
      rw [candidates_among_eq, childrenFound]
      simp only [candidatesOf, children, arrange, orderFound]
      exact rearrange_encoded trail (candidateKeys ▸ differ)
    exact bind_ok.mpr
      ⟨candidates, arranged, collect_decoded trail [] shown (keys ▸ differ) (by simp)⟩

/-- What a tree is encoded as is decoded as what was written of it. -/
theorem decode_encoded (spans : Bool) (tree : SyntaxTree) (trail : Trail)
    (differ : tree.KeysDiffer) (kinds : ∀ node ∈ tree.preorder, node.kind ≠ "")
    (fit : ∀ node ∈ tree.preorder, node.EndsFit) :
    decodeAt trail (encode spans tree) = .ok (tree.map (Node.shown spans)) := by
  induction tree using Tree.induct generalizing trail with
  | node top branches inductionHypothesis =>
    simp only [Tree.preorder, Tree.preorderBranches_eq, List.mem_cons, List.mem_flatMap]
      at kinds fit
    obtain ⟨topDiffer, differ⟩ := (Tree.keys_differ_node top branches).mp differ
    have own := decode_fields_encoded trail spans (kinds top (.inl rfl)) (fit top (.inl rfl))
      branches
    have below := branches_encoded trail spans top topDiffer fun branch member =>
      inductionHypothesis branch member (trail ++ [branch.1]) (differ branch member)
        (fun node inside => kinds node (.inr ⟨branch, member, inside⟩))
        (fun node inside => fit node (.inr ⟨branch, member, inside⟩))
    obtain ⟨ordered, arranged, collected⟩ := bind_ok.mp below
    rw [encode_node, decodeAt]
    refine bind_ok.mpr ⟨_, own, bind_ok.mpr ⟨ordered, arranged, bind_ok.mpr ⟨_, collected, ?_⟩⟩⟩
    rw [Tree.map, Tree.mapBranches_eq]
    rfl

mutual

/-- A tree agrees with itself relabelled if its nodes agree with their new labels. -/
theorem agrees_relabelled {ids : Bool} {change : Node → Node}
    (same : ∀ node : Node, node.agrees ids (change node) = true) (relations : Bool)
    (tree : SyntaxTree) : tree.agrees ids relations (tree.map change) = true := by
  cases tree with
  | node top branches =>
    rw [Tree.map, Tree.agrees, same, agrees_branches_relabelled same relations branches]
    rfl

/-- A list of branches agrees with itself relabelled. -/
theorem agrees_branches_relabelled {ids : Bool} {change : Node → Node}
    (same : ∀ node : Node, node.agrees ids (change node) = true) (relations : Bool)
    (branches : List (String × SyntaxTree)) :
    Tree.agreesBranches ids relations branches (Tree.mapBranches change branches) = true := by
  cases branches with
  | nil => rfl
  | cons branch rest =>
    rw [Tree.mapBranches, Tree.agreesBranches, agrees_relabelled same relations branch.2,
      agrees_branches_relabelled same relations rest]
    simp

end

/-- What is kept of a tree when it is written and read: it agrees with the tree in kinds, values,
ids, keys and order, and it has the ends of the tree if they were written and none otherwise. -/
structure Kept (spans : Bool) (tree result : SyntaxTree) : Prop where
  agrees : tree.agrees true true result = true
  ends : result.map Node.ends =
    tree.map fun node => if spans then node.ends else (none, none)

/-- What is written of a tree keeps it. -/
theorem kept_shown (spans : Bool) (tree : SyntaxTree) :
    Kept spans tree (tree.map (Node.shown spans)) where
  agrees := by
    refine agrees_relabelled (fun node => ?_) true tree
    cases spans <;> simp [Node.agrees, Node.shown]
  ends := by
    rw [Tree.map_map]
    cases spans <;> rfl

/-- In a well-formed document, what hangs below a node can be encoded and decoded again if every
kind in it is there and every location fits, and the result is the same tree. Ends are among what is
kept when they are encoded. -/
theorem decode_encode_keeps {document : Document} (wellFormed : document.WellFormed)
    {handle : Handle} {tree : SyntaxTree} (taken : document.tree? handle = some tree)
    (kinds : ∀ node ∈ tree.preorder, node.kind ≠ "") (fit : ∀ node ∈ tree.preorder, node.EndsFit)
    (spans : Bool) :
    ∃ result, decode (encode spans tree) = .ok result ∧ Kept spans tree result :=
  ⟨tree.map (Node.shown spans), decode_encoded spans tree [] (wellFormed.tree_keys taken) kinds fit,
    kept_shown spans tree⟩

/-- Placeholders with nothing, a value, an id, an end and a child. -/
def placeholders : SyntaxTree :=
  .node (Node.bare "list")
    [("0", .leaf Node.placeholder),
      ("1", .leaf { Node.placeholder with value? := some "" }),
      ("2", .leaf { Node.placeholder with id? := some "gap" }),
      ("3", .leaf { Node.placeholder with start? := some ⟨1, 0⟩ }),
      ("4", .node Node.placeholder [("0", .leaf Node.placeholder)])]

/-- Placeholders stay apart from each other also when their ends are not written. -/
theorem placeholders_kept :
    ∃ result, decode (encode false placeholders) = .ok result ∧ Kept false placeholders result := by
  have differ : placeholders.KeysDiffer := by
    unfold Tree.KeysDiffer
    decide
  exact decode_encode_keeps (Document.of_tree_well_formed differ)
    (Document.of_tree_root placeholders) (by decide)
    (by unfold Node.EndsFit Location.Fits; decide) false

end Exchange

end TreeDelta
