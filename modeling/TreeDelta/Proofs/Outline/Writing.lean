import TreeDelta.Proofs.Outline.ReadBack

/-!
# Outlines written behind a text

An outline need not be put together first: it can be written piece by piece behind a text that is
already there. The indentation is then written body after body, the lines of a body and the children
in parentheses child after child, and a comma stands before every child but the first. What comes
to stand behind the text is the outline, whatever the text was.
-/

namespace TreeDelta.Outline

/-- Write the indentation inside `depth` bodies behind a text. -/
def writeIndentation (options : Options) (depth : Nat) (written : String) : String :=
  depth.repeat (· ++ options.indent) written

/-- Write a node, without its children, behind a text. -/
def writeLabel (options : Options) (node : Node) (written : String) : String :=
  let named := written ++ node.kind
  match options.showValues, node.value? with
  | true, some value =>
    let barred := named.push '|'
    if options.backquote && Text.hasBlank value then (barred.push '`' ++ value).push '`'
    else barred ++ value
  | _, _ => named

mutual

/-- Write the outline of a tree inside `depth` bodies behind a text. -/
def write (options : Options) (depth : Nat) : SyntaxTree → String → String
  | .node top branches, written =>
    let labelled := writeLabel options top written
    if branches.isEmpty then labelled
    else if options.hasBody top.kind then
      let listed := writeLines options (depth + 1) branches (labelled ++ " \x7b\n")
      (writeIndentation options depth listed).push '}'
    else (writeInline options depth 0 branches (labelled.push '(')).push ')'

/-- Write the children in a body, each on a line of its own, behind a text. -/
def writeLines (options : Options) (depth : Nat) : List (String × SyntaxTree) → String → String
  | [], written => written
  | (_, child) :: rest, written =>
    let indented := writeIndentation options depth written
    writeLines options depth rest ((write options depth child indented).push '\n')

/-- Write the children in parentheses from the one at `index` on, behind a text. -/
def writeInline (options : Options) (depth index : Nat) :
    List (String × SyntaxTree) → String → String
  | [], written => written
  | (_, child) :: rest, written =>
    let parted := if index > 0 then written ++ ", " else written
    writeInline options depth (index + 1) rest (write options depth child parted)

end

variable {options : Options}

/-- The indentation is written behind the text. -/
theorem indentation_written (depth : Nat) (written : String) :
    (writeIndentation options depth written).toList =
      written.toList ++ indentation options depth := by
  induction depth with
  | zero => simp [writeIndentation, Nat.repeat, indentation]
  | succ depth inductionHypothesis =>
    rw [writeIndentation] at inductionHypothesis
    rw [writeIndentation, Nat.repeat, String.toList_append, inductionHypothesis, indentation_succ,
      List.append_assoc]

/-- The label is written behind the text. -/
theorem label_written (node : Node) (written : String) :
    (writeLabel options node written).toList = written.toList ++ labelText options node := by
  rw [writeLabel, labelText]
  cases options.showValues with
  | false => simp
  | true =>
    cases node.value? with
    | none => simp
    | some value =>
      by_cases quoted : (options.backquote && Text.hasBlank value) = true
      · simp [valueText, quoted]
      · simp [valueText, quoted]

/-- Whether a tree is written behind every text as its outline. -/
def WritesOutline (options : Options) (tree : SyntaxTree) : Prop :=
  ∀ depth written,
    (write options depth tree written).toList = written.toList ++ render options depth tree

/-- The lines of a body are written behind the text, if the children are. -/
theorem lines_written {branches : List (String × SyntaxTree)}
    (below : ∀ branch ∈ branches, WritesOutline options branch.2) (depth : Nat)
    (written : String) :
    (writeLines options depth branches written).toList =
      written.toList ++ renderLines options depth branches := by
  induction branches generalizing written with
  | nil => simp [writeLines, renderLines]
  | cons branch rest inductionHypothesis =>
    rw [List.forall_mem_cons] at below
    rw [writeLines, inductionHypothesis below.2, String.toList_push, below.1 depth,
      indentation_written, renderLines]
    simp

/-- Children in parentheses that are not the first are written behind the text, each behind a
comma, if the children are. -/
theorem inline_written {branches : List (String × SyntaxTree)}
    (below : ∀ branch ∈ branches, WritesOutline options branch.2) (depth index : Nat)
    (written : String) :
    (writeInline options depth (index + 1) branches written).toList =
      written.toList ++ renderInline options depth branches := by
  induction branches generalizing index written with
  | nil => simp [writeInline, renderInline]
  | cons branch rest inductionHypothesis =>
    rw [List.forall_mem_cons] at below
    rw [writeInline, inductionHypothesis below.2, below.1 depth, if_pos index.succ_pos,
      renderInline]
    simp

/-- Every tree is written behind every text as its outline. -/
theorem writes_outline (tree : SyntaxTree) : WritesOutline options tree := by
  induction tree using Tree.induct with
  | node top branches inductionHypothesis =>
    intro depth written
    rw [write, render_eq]
    cases branches with
    | nil => simp [belowText, label_written]
    | cons branch rest =>
      rw [List.isEmpty_cons, if_neg Bool.false_ne_true, belowText]
      split
      · rw [String.toList_push, indentation_written, lines_written inductionHypothesis,
          String.toList_append, label_written]
        simp
      · -- No comma stands before the first child, so it is written apart from the others.
        rw [List.forall_mem_cons] at inductionHypothesis
        rw [writeInline, String.toList_push, inline_written inductionHypothesis.2,
          inductionHypothesis.1 depth, if_neg (Nat.lt_irrefl 0), String.toList_push, label_written]
        simp

/-- The outline of a tree is written behind a text, whatever the text is. -/
theorem write_eq (depth : Nat) (tree : SyntaxTree) (written : String) :
    write options depth tree written = written ++ String.ofList (render options depth tree) := by
  rw [← String.toList_inj, writes_outline tree depth, String.toList_append, String.toList_ofList]

/-- The outline of a tree is what is written where nothing stands yet. -/
theorem text_written (tree : SyntaxTree) : text options tree = write options 0 tree "" := by
  rw [write_eq, String.empty_append, text]

end TreeDelta.Outline
