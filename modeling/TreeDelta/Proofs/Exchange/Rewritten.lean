import TreeDelta.Proofs.Exchange.OneLevel
import TreeDelta.Proofs.Exchange.Written
import TreeDelta.Proofs.Json.Admitted

/-!
# Writing what has been read

A tree that has been read is written as a text that can be read again, and the tree in it is the
same. Much of the first text may be lost on the way: fields that no node has, null for what is
missing, children as an array or in part without an order. What is written says the same with no
more containers around anything. Children stand in one container as before, an end is the array that
it was, and a placeholder that carries nothing takes no container at all. So a text that fits into
the reader is written as one that fits.
-/

namespace TreeDelta.Exchange

open Json (Value)

variable {trail : Trail} {fields : List (String × Value)}

/-- What every node of a tree must be like for the tree to be read back. -/
theorem decoded_nodes {value : Value} {tree : SyntaxTree}
    (decoded : decodeAt trail value = .ok tree) :
    ∀ node ∈ tree.preorder, node.kind ≠ "" ∧ node.EndsFit := by
  induction tree using Tree.induct generalizing trail value with
  | node top branches inductionHypothesis =>
    cases value with
    | object fields =>
      obtain ⟨⟨_, own⟩, _, each, _⟩ := decode_object_ok.mp decoded
      intro node inside
      rw [Tree.preorder, Tree.preorderBranches_eq, List.mem_cons, List.mem_flatMap] at inside
      rcases inside with rfl | ⟨branch, member, below⟩
      · exact own
      · obtain ⟨entry, _, same⟩ := child_of_branch each member
        obtain ⟨_, ⟨_, placeholder⟩ | ⟨_, decodedBelow⟩⟩ := decoded_child same
        · rw [placeholder] at below
          obtain rfl : node = Node.placeholder := List.mem_singleton.mp below
          exact ⟨by decide, by simp [Node.EndsFit, Node.placeholder, Node.bare]⟩
        · exact inductionHypothesis branch member decodedBelow node below
    | null | bool | number | string | array => cases decoded

/-- What is found in an object nests no more than its fields. -/
theorem nesting_of_found {key : String} {value : Value} (found : fields.lookup key = some value) :
    value.nesting ≤ Value.nestingFields fields :=
  (Value.nesting_fields_le fields _).mp le_rfl _ (mem_of_looked_up found)

/-- Children stand in a container of their own among the fields. -/
theorem ordered_nesting {entry : String × Value} (listed : entry ∈ orderedChildren fields) :
    entry.2.nesting + 1 ≤ Value.nestingFields fields := by
  unfold orderedChildren at listed
  split at listed
  · next elements found =>
    obtain ⟨index, inside, rfl⟩ := List.mem_mapIdx.mp listed
    have within := (Value.nesting_elements_le elements _).mp le_rfl _ (List.getElem_mem inside)
    exact (Nat.succ_le_succ within).trans (nesting_of_found found)
  · next entries found =>
    have within := (Value.nesting_fields_le entries _).mp le_rfl _ (mem_of_listed_first listed)
    exact (Nat.succ_le_succ within).trans (nesting_of_found found)
  · cases listed

/-- The own fields of a node nest no more than those that they were decoded from. -/
theorem own_fields_nesting {top : Node} (carries : Carries fields top) :
    ∀ entry ∈ encodeFields true top, entry.2.nesting ≤ Value.nestingFields fields := by
  intro entry listed
  obtain ⟨text, same⟩ | ⟨_, location, carried, same⟩ := encoded_field listed
  · rw [same]
    exact Nat.zero_le _
  · rw [same]
    rcases carried with start | stop
    · have found := carries.start
      rw [start] at found
      exact nesting_of_found found
    · have found := carries.stop
      rw [stop] at found
      exact nesting_of_found found

/-- The children of a node nest no more than the fields that they were decoded from, if none of them
nests more than the child that it was decoded from.

Two fields are written, the object of the children and their order. The first nests one more than
the deepest child, and so did the field that the children were decoded from; the second nests only
once. -/
theorem child_fields_nesting {branches : List (String × SyntaxTree)}
    (each : ∀ branch ∈ branches, ∃ entry ∈ orderedChildren fields,
      (if isBarePlaceholder branch.2 then Value.null else encode true branch.2).nesting ≤
        entry.2.nesting) :
    ∀ entry ∈ childFields true branches, entry.2.nesting ≤ Value.nestingFields fields := by
  cases branches with
  | nil => simp [childFields]
  | cons first rest =>
    have room {branch : String × SyntaxTree} (member : branch ∈ first :: rest) :
        (if isBarePlaceholder branch.2 then Value.null else encode true branch.2).nesting + 1 ≤
          Value.nestingFields fields := by
      obtain ⟨entry, listed, within⟩ := each branch member
      exact (Nat.succ_le_succ within).trans (ordered_nesting listed)
    have some : 1 ≤ Value.nestingFields fields :=
      (Nat.le_add_left 1 _).trans (room List.mem_cons_self)
    have written : (Value.object (encodeBranches true (first :: rest))).nesting ≤
        Value.nestingFields fields := by
      have bound : Value.nestingFields (encodeBranches true (first :: rest)) ≤
          Value.nestingFields fields - 1 := by
        rw [Value.nesting_fields_le, encode_branches_eq, List.forall_mem_map]
        exact fun branch member => Nat.le_sub_one_of_lt (room member)
      rw [Value.nesting]
      omega
    have order : (Value.array ((first :: rest).map fun branch => .string branch.1)).nesting ≤
        Value.nestingFields fields := by
      have bound : Value.nestingElements ((first :: rest).map fun branch => .string branch.1) ≤
          0 := by
        rw [Value.nesting_elements_le, List.forall_mem_map]
        exact fun branch _ => le_rfl
      rw [Value.nesting]
      omega
    intro entry listed
    simp only [childFields, List.isEmpty_cons, Bool.false_eq_true, ↓reduceIte, List.mem_cons,
      List.not_mem_nil, or_false] at listed
    rcases listed with rfl | rfl
    · exact written
    · exact order

/-- A tree is written with no more containers open at once than the value has that it was decoded
from. -/
theorem encode_nesting_le {value : Value} {tree : SyntaxTree}
    (decoded : decodeAt trail value = .ok tree) : (encode true tree).nesting ≤ value.nesting := by
  induction tree using Tree.induct generalizing trail value with
  | node top branches inductionHypothesis =>
    cases value with
    | object fields =>
      obtain ⟨⟨carries, _⟩, _, each, _⟩ := decode_object_ok.mp decoded
      rw [encode_node, Value.nesting, Value.nesting, Nat.add_le_add_iff_right,
        Value.nesting_fields_le, List.forall_mem_append]
      -- Children are written as an object even if they were an array: one container in either case.
      refine ⟨own_fields_nesting carries, child_fields_nesting fun branch member => ?_⟩
      obtain ⟨entry, listed, same⟩ := child_of_branch each member
      refine ⟨entry, listed, ?_⟩
      obtain ⟨_, ⟨_, placeholder⟩ | ⟨_, decodedBelow⟩⟩ := decoded_child same
      · rw [placeholder]
        exact Nat.zero_le _
      · split
        · exact Nat.zero_le _
        · exact inductionHypothesis branch member decodedBelow
    | null | bool | number | string | array => cases decoded

/-- A tree is shown as itself when its ends are. -/
theorem shown_with_spans (tree : SyntaxTree) : tree.map (Node.shown true) = tree := by
  induction tree using Tree.induct with
  | node top branches inductionHypothesis =>
    rw [Tree.map, Tree.mapBranches_eq]
    refine congrArg (Tree.node top) ((List.map_congr_left fun branch member => ?_).trans
      (List.map_id _))
    rw [inductionHypothesis branch member]
    rfl

/-- A tree that has been read is written, in either layout and with its ends, as a text that is read
as the same tree, and that tree is written as the same text.

What has been decoded has distinct keys, kinds and ends that fit, so writing it gives a value that
can be read and decoded as the same tree. It must not nest more than the limit allows either, and it
nests no more than the value that was read. -/
theorem read_write_fixed (text : String) (tree : SyntaxTree) (parsed : parse text = .ok tree)
    (pretty : Bool) :
    ∃ again, parse (write ⟨true, pretty⟩ tree) = .ok again ∧ again = tree ∧
      write ⟨true, pretty⟩ again = write ⟨true, pretty⟩ tree := by
  obtain ⟨value, read, decoded⟩ :
      ∃ value, Json.read text = .ok value ∧ decode value = .ok tree := by
    unfold parse at parsed
    split at parsed
    · cases parsed
    · next value read =>
      split at parsed
      · cases parsed
      · next found decoded =>
        obtain rfl := Except.ok.inj parsed
        exact ⟨value, read, decoded⟩
  have nodes := decoded_nodes decoded
  have differ := decode_keys decoded
  have fits : (encode true tree).nesting ≤ Json.nestingLimit :=
    (encode_nesting_le decoded).trans (Json.read_admitted read).fits
  have readAgain : Json.read (write ⟨true, pretty⟩ tree) = .ok (encode true tree) := by
    have readable := encode_readable true tree differ fun node inside => (nodes node inside).2
    exact (Json.read_written Json.nestingLimit pretty readable).trans (if_pos fits)
  have decodedAgain : decode (encode true tree) = .ok tree := by
    have shown := decode_encoded true tree [] differ (fun node inside => (nodes node inside).1)
      fun node inside => (nodes node inside).2
    rwa [shown_with_spans] at shown
  refine ⟨tree, ?_, rfl, rfl⟩
  rw [parse, readAgain]
  simp only [decodedAgain]

/-- A value with children as an array, null for what is missing, and a field that no node has. -/
def loose : Value :=
  .object
    [("value", .null), ("type", .string "list"), ("more", .array [.array [.bool true]]),
      ("children", .array
        [.null,
          .object [("type", .string "word"), ("sourceStart", .array [.natural 1, .natural 0])]])]

/-- The tree of that value is written in both layouts without what was too much. -/
theorem loose_rewritten : ∃ tree, parse (Json.write false loose) = .ok tree ∧ ∀ pretty, ∃ again,
    parse (write ⟨true, pretty⟩ tree) = .ok again ∧ again = tree ∧
      write ⟨true, pretty⟩ again = write ⟨true, pretty⟩ tree := by
  have start : Json.Readable (.array [.natural 1, .natural 0]) :=
    .array (by simpa using ⟨Json.Readable.natural (by decide), Json.Readable.natural (by decide)⟩)
  have word : Json.Readable
      (.object [("type", .string "word"), ("sourceStart", .array [.natural 1, .natural 0])]) :=
    .object (by decide) (by simpa using ⟨Json.Readable.string "word", start⟩)
  have more : Json.Readable (.array [.array [.bool true]]) :=
    .array (by simpa using Json.Readable.array (by simpa using Json.Readable.bool true))
  have readable : Json.Readable loose :=
    .object (by decide) (by
      simpa using ⟨Json.Readable.null, Json.Readable.string "list", more,
        Json.Readable.array (by simpa using ⟨Json.Readable.null, word⟩)⟩)
  have read : Json.read (Json.write false loose) = .ok loose :=
    (Json.read_written Json.nestingLimit false readable).trans (if_pos (by decide))
  have parsed : parse (Json.write false loose) = .ok (.node (Node.bare "list")
      [("0", .leaf Node.placeholder),
        ("1", .leaf ⟨"word", none, none, some ⟨1, 0⟩, none⟩)]) := by
    rw [parse, read]
    rfl
  exact ⟨_, parsed, read_write_fixed _ _ parsed⟩

end TreeDelta.Exchange
