import TreeDelta.Outline
import TreeDelta.Proofs.Text.Divided

/-!
# Labels in an outline

An outline has signs of its own: brackets, commas, bars and backquotes. Where kinds and values hold
neither signs nor blanks, one can tell where the label of a node ends, as long as what stands behind
it begins with a blank or a sign other than a bar. The kind ends with the label or where the bar
stands. So a label shows the kind and, if values are shown, the value, where an empty value is not
the same as none.
-/

namespace TreeDelta.Outline

/-- The signs that an outline uses itself. -/
def signs : List Char := ['(', ')', '{', '}', ',', '|', '`']

/-- Whether a character is neither blank nor a sign of an outline. -/
def isPlain (c : Char) : Bool := !Text.isBlank c && !signs.contains c

/-- Whether a text holds plain characters only. -/
def PlainText (text : String) : Prop := ∀ c ∈ text.toList, isPlain c

/-- Whether the kind of a node and its value, if it has one, are plain. -/
def PlainNode (node : Node) : Prop := PlainText node.kind ∧ ∀ value ∈ node.value?, PlainText value

/-- Whether all nodes of a tree are plain. -/
def PlainTree (tree : SyntaxTree) : Prop := ∀ node ∈ tree.preorder, PlainNode node

-- By the list: there is also an instance that runs through all characters.
instance (text : String) : Decidable (PlainText text) :=
  List.decidableBAll (fun c => isPlain c = true) text.toList

instance (node : Node) : Decidable (PlainNode node) :=
  inferInstanceAs (Decidable (PlainText node.kind ∧ ∀ value ∈ node.value?, PlainText value))

instance (tree : SyntaxTree) : Decidable (PlainTree tree) :=
  inferInstanceAs (Decidable (∀ node ∈ tree.preorder, PlainNode node))

/-- A tree is plain if its top and its branches are. -/
theorem plain_tree_iff (top : Node) (branches : List (String × SyntaxTree)) :
    PlainTree (.node top branches) ↔
      PlainNode top ∧ ∀ branch ∈ branches, PlainTree branch.2 := by
  simp only [PlainTree, Tree.preorder, Tree.preorderBranches_eq, List.forall_mem_cons,
    List.forall_mem_flatMap]

/-- The value of a node that an outline shows. -/
def shownValue? (options : Options) (node : Node) : Option String :=
  if options.showValues then node.value? else none

/-- Whether an outline shows two nodes alike. -/
def looksLike (options : Options) (first second : Node) : Bool :=
  first.kind = second.kind && shownValue? options first = shownValue? options second

/-- A value behind a bar, if there is one. -/
def barred : Option String → List Char
  | some value => '|' :: value.toList
  | none => []

/-- The label of a plain node is its kind and, behind a bar, the value that is shown. -/
theorem label_plain (options : Options) {node : Node} (plain : PlainNode node) :
    labelText options node = node.kind.toList ++ barred (shownValue? options node) := by
  rw [labelText, shownValue?]
  cases options.showValues with
  | false => rfl
  | true =>
    cases carried : node.value? with
    | none => rfl
    | some value =>
      have unquoted : Text.hasBlank value = false := by
        rw [Text.hasBlank, List.any_eq_false]
        intro c member blank
        have plainChar := plain.2 value carried c member
        rw [isPlain, blank] at plainChar
        cases plainChar
      simp [valueText, unquoted, barred]

/-- The bar tells a value from none, and behind the bar stands the value. -/
theorem barred_injective {first second : Option String} (same : barred first = barred second) :
    first = second := by
  cases first with
  | none =>
    cases second with
    | none => rfl
    | some value => cases same
  | some value =>
    cases second with
    | none => cases same
    | some other => rw [String.toList_inj.mp (List.cons.inj same).2]

/-- Where values are shown, nodes of the same kind and value look alike. -/
theorem looks_like_agrees {options : Options} (shown : options.showValues = true) :
    looksLike options = Node.agrees false := by
  funext first second
  simp [looksLike, shownValue?, shown, Node.agrees]

/-- Whether two nodes are of the same kind. -/
def sameKind (first second : Node) : Bool := first.kind = second.kind

/-- Where values are hidden, nodes of the same kind look alike. -/
theorem looks_like_same_kind {options : Options} (hidden : options.showValues = false) :
    looksLike options = sameKind := by
  funext first second
  simp [looksLike, shownValue?, hidden, sameKind]

/-- Whether a character may stand in the label of a plain node. -/
def inLabel (c : Char) : Bool := isPlain c || c = '|'

/-- Labels of plain nodes hold plain characters and a bar. -/
theorem label_inside {options : Options} {node : Node} (plain : PlainNode node) :
    ∀ c ∈ labelText options node, inLabel c := by
  intro c member
  rw [label_plain options plain, List.mem_append] at member
  rcases member with ofKind | ofValue
  · simp [inLabel, plain.1 c ofKind]
  · rw [shownValue?] at ofValue
    split at ofValue
    · cases carried : node.value? with
      | none =>
        rw [carried] at ofValue
        cases ofValue
      | some value =>
        rw [carried] at ofValue
        rcases List.mem_cons.mp ofValue with rfl | later
        · rfl
        · simp [inLabel, plain.2 value carried c later]
    · cases ofValue

/-- Two texts that begin with labels are the same exactly if the labels show the same and what
stands behind them is the same. -/
theorem label_append_iff {options : Options} {first second : Node} (plainFirst : PlainNode first)
    (plainSecond : PlainNode second) {firstRest secondRest : List Char}
    (leavesFirst : ∀ c ∈ firstRest.head?, inLabel c = false)
    (leavesSecond : ∀ c ∈ secondRest.head?, inLabel c = false) :
    labelText options first ++ firstRest = labelText options second ++ secondRest ↔
      looksLike options first second = true ∧ firstRest = secondRest := by
  have atBar (value? : Option String) : ∀ c ∈ (barred value?).head?, isPlain c = false := by
    cases value? with
    | none => simp [barred]
    | some value =>
      rintro c ⟨⟩
      rfl
  rw [looksLike, Bool.and_eq_true, decide_eq_true_eq, decide_eq_true_eq]
  constructor
  · intro same
    obtain ⟨labels, rests⟩ := Text.divided_alike same (label_inside plainFirst)
      (label_inside plainSecond) leavesFirst leavesSecond
    rw [label_plain options plainFirst, label_plain options plainSecond] at labels
    obtain ⟨kinds, values⟩ :=
      Text.divided_alike labels plainFirst.1 plainSecond.1 (atBar _) (atBar _)
    exact ⟨⟨String.toList_inj.mp kinds, barred_injective values⟩, rests⟩
  · rintro ⟨⟨kinds, values⟩, rfl⟩
    rw [label_plain options plainFirst, label_plain options plainSecond, kinds, values]

end TreeDelta.Outline
