import TreeDelta.Proofs.EqualTrees
import TreeDelta.Proofs.LineDiff.Outlines
import TreeDelta.Proofs.Outline.Labels

/-!
# Outlines tell trees apart

From the outline of a plain tree one can read the tree back, as far as it is shown, and one can tell
where the outline ends if other nodes stand behind it. The induction is on the tree and has to speak
of what stands behind, since the outlines of siblings do. Behind a whole outline stands a closing
parenthesis, a comma or the end of a line; what opens children is a blank or a parenthesis, so a
node with children cannot be taken for one without. Children in a body are indented, and the brace
behind them is less so; but even with an empty indentation no child begins with a brace.
-/

namespace TreeDelta.Outline

variable {options : Options}

/-- Whether a text begins with what may stand behind an outline, if it is not empty. -/
def Closes (rest : List Char) : Prop := ∀ c ∈ rest.head?, c = ')' ∨ c = ',' ∨ c = '\n'

/-- What stands behind a child in a body is a line feed. -/
theorem closes_line (behind : List Char) : Closes ('\n' :: behind) := by
  rintro c ⟨⟩
  exact .inr (.inr rfl)

/-- What an outline shows of the branches of a node, behind the label. -/
def belowText (options : Options) (depth : Nat) (kind : String) :
    List (String × SyntaxTree) → List Char
  | [] => []
  | (key, first) :: rest =>
    if options.hasBody kind then
      ' ' :: '{' :: '\n' :: (renderLines options (depth + 1) ((key, first) :: rest)
        ++ (indentation options depth ++ ['}']))
    else '(' :: (render options depth first ++ (renderInline options depth rest ++ [')']))

/-- An outline is a label and what is shown of the branches. -/
theorem render_eq (depth : Nat) (top : Node) (branches : List (String × SyntaxTree)) :
    render options depth (.node top branches) =
      labelText options top ++ belowText options depth top.kind branches := by
  cases branches with
  | nil => rw [render, belowText, List.append_nil]
  | cons branch rest =>
    rw [render, belowText]
    split <;> simp [renderLines]

/-- Branches are opened by a blank or a parenthesis. -/
theorem below_head (depth : Nat) (kind : String) (branches : List (String × SyntaxTree))
    (rest : List Char) :
    ∀ c ∈ (belowText options depth kind branches ++ rest).head?,
      c = ' ' ∨ c = '(' ∨ c ∈ rest.head? := by
  intro c first
  cases branches with
  | nil => exact .inr (.inr first)
  | cons branch others =>
    rw [belowText] at first
    split at first
    · exact .inl (Option.some.inj first).symm
    · exact .inr (.inl (Option.some.inj first).symm)

/-- What stands behind a label does not belong to it. -/
theorem below_leaves {rest : List Char} (closes : Closes rest) (depth : Nat) (kind : String)
    (branches : List (String × SyntaxTree)) :
    ∀ c ∈ (belowText options depth kind branches ++ rest).head?, inLabel c = false := by
  intro c first
  rcases below_head depth kind branches rest c first with rfl | rfl | behind
  · rfl
  · rfl
  · rcases closes c behind with rfl | rfl | rfl <;> rfl

/-- Whether the outline of a tree is told from that of every plain tree that is not shown alike,
whatever stands behind the two. -/
def ReadsBack (options : Options) (tree : SyntaxTree) : Prop :=
  ∀ depth other firstRest secondRest, PlainTree other → Closes firstRest → Closes secondRest →
    (render options depth tree ++ firstRest = render options depth other ++ secondRest ↔
      tree.corresponds (looksLike options) other = true ∧ firstRest = secondRest)

/-- No line of a body begins with a brace. -/
theorem line_without_brace (blank : ∀ c ∈ options.indent.toList, c = ' ' ∨ c = '\t') (depth : Nat)
    {tree : SyntaxTree} (plain : PlainTree tree) (behind rest : List Char) :
    '}' :: rest ≠ options.indent.toList ++ (render options depth tree ++ '\n' :: behind) := by
  intro same
  cases indent : options.indent.toList with
  | cons c others =>
    rw [indent, List.cons_append] at same
    have first : c = ' ' ∨ c = '\t' := blank c (by rw [indent]; exact List.mem_cons_self)
    rw [← (List.cons.inj same).1] at first
    rcases first with wrong | wrong <;> cases wrong
  | nil =>
    obtain ⟨top, branches⟩ := tree
    rw [indent, List.nil_append, render_eq, List.append_assoc] at same
    -- The label would be empty, and the brace would stand behind it.
    obtain ⟨-, braced⟩ := @Text.divided_alike inLabel [] _ _ _ same (by simp)
      (label_inside ((plain_tree_iff top branches).mp plain).1) (by rintro c ⟨⟩; rfl)
      (below_leaves (closes_line behind) depth top.kind branches)
    have head := @below_head options depth top.kind branches ('\n' :: behind) '}'
    rw [← braced] at head
    rcases head rfl with wrong | wrong | wrong <;> cases wrong

/-- The indentation inside one body more. -/
theorem indentation_succ (depth : Nat) :
    indentation options (depth + 1) = indentation options depth ++ options.indent.toList := by
  simp [indentation, List.replicate_succ']

/-- The lines of a body, with the brace behind them, tell the children in it. -/
theorem lines_append_iff (blank : ∀ c ∈ options.indent.toList, c = ' ' ∨ c = '\t') (depth : Nat)
    {first second : List (String × SyntaxTree)}
    (reads : ∀ branch ∈ first, ReadsBack options branch.2)
    (plainFirst : ∀ branch ∈ first, PlainTree branch.2)
    (plainSecond : ∀ branch ∈ second, PlainTree branch.2) (firstRest secondRest : List Char) :
    renderLines options (depth + 1) first ++ (indentation options depth ++ '}' :: firstRest) =
        renderLines options (depth + 1) second ++ (indentation options depth ++ '}' :: secondRest) ↔
      Tree.correspondsBranches (looksLike options) first second = true ∧
        firstRest = secondRest := by
  induction first generalizing second with
  | nil =>
    cases second with
    | nil => simp [renderLines, Tree.correspondsBranches]
    | cons other others =>
      refine iff_of_false ?_ (by simp [Tree.correspondsBranches])
      simp only [renderLines, indentation_succ, List.nil_append, List.append_assoc,
        List.append_cancel_left_eq]
      exact line_without_brace blank (depth + 1) (plainSecond other List.mem_cons_self) _ _
  | cons branch rest inductionHypothesis =>
    cases second with
    | nil =>
      refine iff_of_false ?_ (by simp [Tree.correspondsBranches])
      simp only [renderLines, indentation_succ, List.nil_append, List.append_assoc,
        List.append_cancel_left_eq]
      exact Ne.symm
        (line_without_brace blank (depth + 1) (plainFirst branch List.mem_cons_self) _ _)
    | cons other others =>
      rw [List.forall_mem_cons] at reads plainFirst plainSecond
      simp only [renderLines, List.append_assoc, List.append_cancel_left_eq, List.cons_append,
        List.nil_append]
      rw [reads.1 (depth + 1) other.2 _ _ plainSecond.1 (closes_line _) (closes_line _),
        List.cons.injEq, inductionHypothesis reads.2 plainFirst.2 plainSecond.2,
        Tree.correspondsBranches, Bool.and_eq_true]
      simp [and_assoc]

/-- Further children in parentheses begin with a comma, and behind the last one the parenthesis is
closed. -/
theorem inline_closes (depth : Nat) (branches : List (String × SyntaxTree)) (rest : List Char) :
    Closes (renderInline options depth branches ++ ')' :: rest) := by
  intro c first
  cases branches with
  | nil => exact .inl (Option.some.inj first).symm
  | cons branch others =>
    rw [renderInline] at first
    exact .inr (.inl (Option.some.inj first).symm)

/-- Children in parentheses are told by what stands between the commas, up to the parenthesis that
closes. -/
theorem inline_append_iff (depth : Nat) {first second : List (String × SyntaxTree)}
    (reads : ∀ branch ∈ first, ReadsBack options branch.2)
    (plain : ∀ branch ∈ second, PlainTree branch.2) (firstRest secondRest : List Char) :
    renderInline options depth first ++ ')' :: firstRest =
        renderInline options depth second ++ ')' :: secondRest ↔
      Tree.correspondsBranches (looksLike options) first second = true ∧
        firstRest = secondRest := by
  induction first generalizing second with
  | nil =>
    cases second with
    | nil => simp [renderInline, Tree.correspondsBranches]
    | cons other others => simp [renderInline, Tree.correspondsBranches]
  | cons branch rest inductionHypothesis =>
    cases second with
    | nil => simp [renderInline, Tree.correspondsBranches]
    | cons other others =>
      rw [List.forall_mem_cons] at reads plain
      have further := inductionHypothesis reads.2 plain.2
      simp only [renderInline, List.append_assoc, List.append_cancel_left_eq]
      rw [reads.1 depth other.2 _ _ plain.1 (inline_closes depth _ _)
        (inline_closes depth _ _), further,
        Tree.correspondsBranches, Bool.and_eq_true, and_assoc]

/-- What may stand behind an outline does not open children. -/
theorem below_opens (depth : Nat) (kind : String) (branch : String × SyntaxTree)
    (others : List (String × SyntaxTree)) {rest : List Char} (closes : Closes rest)
    (behind : List Char) : rest ≠ belowText options depth kind (branch :: others) ++ behind := by
  rintro rfl
  rw [belowText] at closes
  split at closes
  · rcases closes ' ' rfl with wrong | wrong | wrong <;> cases wrong
  · rcases closes '(' rfl with wrong | wrong | wrong <;> cases wrong

/-- What is shown of the branches of two nodes of one kind tells them. -/
theorem below_append_iff (blank : ∀ c ∈ options.indent.toList, c = ' ' ∨ c = '\t') (depth : Nat)
    (kind : String) {first second : List (String × SyntaxTree)}
    (reads : ∀ branch ∈ first, ReadsBack options branch.2)
    (plainFirst : ∀ branch ∈ first, PlainTree branch.2)
    (plainSecond : ∀ branch ∈ second, PlainTree branch.2) {firstRest secondRest : List Char}
    (closesFirst : Closes firstRest) (closesSecond : Closes secondRest) :
    belowText options depth kind first ++ firstRest =
        belowText options depth kind second ++ secondRest ↔
      Tree.correspondsBranches (looksLike options) first second = true ∧
        firstRest = secondRest := by
  cases first with
  | nil =>
    cases second with
    | nil => simp [belowText, Tree.correspondsBranches]
    | cons other others =>
      exact iff_of_false (below_opens depth kind other others closesFirst _)
        (by simp [Tree.correspondsBranches])
  | cons branch rest =>
    cases second with
    | nil =>
      exact iff_of_false (below_opens depth kind branch rest closesSecond _).symm
        (by simp [Tree.correspondsBranches])
    | cons other others =>
      by_cases body : options.hasBody kind = true
      · have lines := lines_append_iff blank depth reads plainFirst plainSecond firstRest secondRest
        rw [← lines, belowText, belowText, if_pos body, if_pos body]
        simp
      · have inline := inline_append_iff depth reads plainSecond firstRest secondRest
        rw [← inline, belowText, belowText, if_neg body, if_neg body]
        simp [renderInline]

/-- The outline of a plain tree tells it from other plain trees. -/
theorem reads_back (blank : ∀ c ∈ options.indent.toList, c = ' ' ∨ c = '\t') {tree : SyntaxTree}
    (plain : PlainTree tree) : ReadsBack options tree := by
  induction tree using Tree.induct with
  | node top branches inductionHypothesis =>
    intro depth other firstRest secondRest plainOther closesFirst closesSecond
    obtain ⟨otherTop, otherBranches⟩ := other
    rw [plain_tree_iff] at plain plainOther
    have reads : ∀ branch ∈ branches, ReadsBack options branch.2 := fun branch member =>
      inductionHypothesis branch member (plain.2 branch member)
    rw [render_eq, render_eq, List.append_assoc, List.append_assoc,
      label_append_iff plain.1 plainOther.1 (below_leaves closesFirst _ _ _)
        (below_leaves closesSecond _ _ _), Tree.corresponds, Bool.and_eq_true, and_assoc]
    refine and_congr_right fun alike => ?_
    have kinds : top.kind = otherTop.kind := by
      rw [looksLike, Bool.and_eq_true, decide_eq_true_eq] at alike
      exact alike.1
    rw [← kinds]
    exact below_append_iff blank depth top.kind reads plain.2 plainOther.2 closesFirst closesSecond

/-- Two plain trees have the same outline exactly if they are shown alike. -/
theorem text_eq_iff (blank : ∀ c ∈ options.indent.toList, c = ' ' ∨ c = '\t')
    {first second : SyntaxTree} (plainFirst : PlainTree first) (plainSecond : PlainTree second) :
    text options first = text options second ↔
      first.corresponds (looksLike options) second = true := by
  have closes : Closes [] := by
    rintro c ⟨⟩
  have whole := reads_back blank plainFirst 0 second [] [] plainSecond closes closes
  rw [List.append_nil, List.append_nil, and_iff_left rfl] at whole
  rw [text, text, String.ofList_inj, whole]

/-- Of two trees whose kinds and values hold no blanks and no signs, whatever kinds have bodies and
whatever blanks make the indentation, the outlines with values are the same exactly if the trees
agree in kinds, values and shape, and the outlines without values exactly if they agree in kinds and
shape. So the line diff with values is empty, in any context, exactly for trees that agree. -/
theorem outlines_tell_apart {options : Options}
    (blank : ∀ c ∈ options.indent.toList, c = ' ' ∨ c = '\t') {first second : SyntaxTree}
    (plainFirst : PlainTree first) (plainSecond : PlainTree second) :
    (options.showValues = true →
      (text options first = text options second ↔ first.agrees false false second = true) ∧
      ∀ context, LineDiff.ofTrees options context first second = "" ↔
        first.agrees false false second = true) ∧
      (options.showValues = false →
        (text options first = text options second ↔ first.corresponds sameKind second = true)) := by
  have alike := text_eq_iff blank plainFirst plainSecond
  constructor
  · intro shown
    rw [looks_like_agrees shown, ← Tree.agrees_eq_corresponds] at alike
    exact ⟨alike, fun context =>
      (LineDiff.of_trees_empty_iff options context first second).trans alike⟩
  · intro hidden
    rwa [looks_like_same_kind hidden] at alike

/-- A call with an empty value in a block, and a call without a value in the same block, have
outlines of their own as long as values are shown. Without values they have the same. -/
theorem empty_value_told :
    let options := Options.forLanguage (· = "block")
    let call : Node := Node.bare "call"
    let first : SyntaxTree := .node (Node.bare "block")
      [("0", .node { call with value? := some "" } [("0", .leaf (Node.bare "name"))])]
    let second : SyntaxTree := .node (Node.bare "block")
      [("only", .node call [("0", .leaf (Node.bare "name"))])]
    PlainTree first ∧ PlainTree second ∧ text options first ≠ text options second ∧
      LineDiff.ofTrees options 3 first second ≠ "" ∧
      text { options with showValues := false } first =
        text { options with showValues := false } second := by
  intro options call first second
  have blank : ∀ c ∈ options.indent.toList, c = ' ' ∨ c = '\t' := by
    simp [options, Options.forLanguage, Options.plain]
  have plainFirst : PlainTree first := by decide
  have plainSecond : PlainTree second := by decide
  obtain ⟨told, shown⟩ := (outlines_tell_apart blank plainFirst plainSecond).1 rfl
  have hidden := (@outlines_tell_apart { options with showValues := false } blank first second
    plainFirst plainSecond).2 rfl
  have differ : ¬ first.agrees false false second = true := by decide
  exact ⟨plainFirst, plainSecond, told.not.mpr differ, (shown 3).not.mpr differ,
    hidden.mpr (by decide)⟩

end TreeDelta.Outline
