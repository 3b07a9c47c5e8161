import TreeDelta.Proofs.Outline.Writing
import TreeDelta.Proofs.Tree.Subtrees

/-!
# Outlines inside more bodies

An outline inside more bodies is the same outline, moved to the right: the added indentation stands
behind every line feed and nowhere else. A body puts an indentation before its first child, before
each further one and before the brace that closes it, and each of these stands behind a line feed.
Parentheses put none, and what stands in them is as deep as they are. So children in a body and
children in parentheses may follow each other in any way.

The law needs the labels and the indentation itself to hold no line feed. The line feeds of an
outline are then those that bodies put there: one behind the brace that opens a body and one behind
each of its children.
-/

namespace TreeDelta.Outline

/-! ## Texts without line feeds -/

/-- Whether a text holds no line feed. -/
def Unbroken (text : String) : Prop := '\n' ∉ text.toList

/-- Whether the kinds of all nodes of a tree, and the values that they have, hold no line feed. -/
def UnbrokenTree (tree : SyntaxTree) : Prop :=
  ∀ node ∈ tree.preorder, Unbroken node.kind ∧ ∀ value ∈ node.value?, Unbroken value

instance (text : String) : Decidable (Unbroken text) :=
  inferInstanceAs (Decidable ('\n' ∉ text.toList))

instance (tree : SyntaxTree) : Decidable (UnbrokenTree tree) :=
  inferInstanceAs (Decidable (∀ node ∈ tree.preorder, Unbroken node.kind ∧
    ∀ value ∈ node.value?, Unbroken value))

/-- A tree is unbroken if its top and its branches are. -/
theorem unbroken_tree_iff (top : Node) (branches : List (String × SyntaxTree)) :
    UnbrokenTree (.node top branches) ↔
      (Unbroken top.kind ∧ ∀ value ∈ top.value?, Unbroken value) ∧
        ∀ branch ∈ branches, UnbrokenTree branch.2 := by
  simp only [UnbrokenTree, Tree.preorder, Tree.preorderBranches_eq, List.forall_mem_cons,
    List.forall_mem_flatMap]

variable {options : Options}

/-- The label of a node holds no line feed if its kind and its value hold none. -/
theorem label_unbroken {node : Node} (kind : Unbroken node.kind)
    (value : ∀ value ∈ node.value?, Unbroken value) : '\n' ∉ labelText options node := by
  rw [labelText, List.mem_append, not_or]
  refine ⟨kind, ?_⟩
  split
  · next shown carried =>
    have unbroken := value _ carried
    rw [Unbroken] at unbroken
    rw [valueText]
    split <;> simp [unbroken]
  · exact List.not_mem_nil

/-- What passes from the branches to the tree above them, if its label holds no line feed, is true
of every unbroken tree. -/
theorem induct_unbroken (options : Options) {motive : SyntaxTree → Prop}
    (node : ∀ top branches, '\n' ∉ labelText options top →
      (∀ branch ∈ branches, motive branch.2) → motive (.node top branches))
    {tree : SyntaxTree} (unbroken : UnbrokenTree tree) : motive tree := by
  induction tree using Tree.induct with
  | node top branches inductionHypothesis =>
    rw [unbroken_tree_iff] at unbroken
    apply node
    · exact label_unbroken unbroken.1.1 unbroken.1.2
    · intro branch member
      exact inductionHypothesis branch member (unbroken.2 branch member)

/-- An indentation holds no line feed if that of one body holds none. -/
theorem indentation_unbroken (indent : Unbroken options.indent) (depth : Nat) :
    '\n' ∉ indentation options depth := by
  intro feed
  obtain ⟨text, member, feed⟩ := List.mem_flatten.mp feed
  rw [List.eq_of_mem_replicate member] at feed
  exact indent feed

/-- The indentation inside some bodies and further ones is that inside the former and then that
inside the latter. -/
theorem indentation_add (outer inner : Nat) :
    indentation options (outer + inner) =
      indentation options outer ++ indentation options inner := by
  rw [indentation, ← List.replicate_append_replicate, List.flatten_append]
  rfl

/-! ## Putting a text behind every line feed -/

/-- A text with another one put behind each of its line feeds. -/
def behindFeeds (inserted text : List Char) : List Char :=
  text.flatMap fun c => if c = '\n' then c :: inserted else [c]

/-- Nothing is inserted into the empty text. -/
@[simp] theorem behind_feeds_nil (inserted : List Char) : behindFeeds inserted [] = [] := rfl

/-- Behind the line feeds of two texts the same is inserted as into each alone. -/
@[simp] theorem behind_feeds_append (inserted first second : List Char) :
    behindFeeds inserted (first ++ second) =
      behindFeeds inserted first ++ behindFeeds inserted second :=
  List.flatMap_append

/-- Behind a line feed the text is put, and then follows the rest. -/
@[simp] theorem behind_feeds_feed (inserted rest : List Char) :
    behindFeeds inserted ('\n' :: rest) = '\n' :: (inserted ++ behindFeeds inserted rest) := rfl

/-- Nothing is put behind another character. -/
@[simp] theorem behind_feeds_other (inserted rest : List Char) {c : Char} (other : c ≠ '\n') :
    behindFeeds inserted (c :: rest) = c :: behindFeeds inserted rest := by
  rw [behindFeeds, List.flatMap_cons, if_neg other]
  rfl

/-- Nothing is put into a text without line feeds. -/
theorem behind_feeds_unbroken (inserted : List Char) {text : List Char} (unbroken : '\n' ∉ text) :
    behindFeeds inserted text = text := by
  have alone : ∀ c ∈ text, (if c = '\n' then c :: inserted else [c]) = [c] := by
    intro c member
    apply if_neg
    rintro rfl
    exact unbroken member
  rw [behindFeeds, List.flatMap_congr alone, List.flatMap_singleton']

/-! ## The law of added indentation -/

/-- Whether the outline of a tree inside some bodies more is that inside the others, with the
indentation of the former behind every line feed. -/
def MovesRight (options : Options) (tree : SyntaxTree) : Prop :=
  ∀ outer depth, render options (outer + depth) tree =
    behindFeeds (indentation options outer) (render options depth tree)

/-- The lines of a body, moved to the right: the added indentation stands before the first line, and
it is put behind the line feed of the last one. -/
theorem lines_move_right (indent : Unbroken options.indent) (outer depth : Nat)
    {branches : List (String × SyntaxTree)}
    (below : ∀ branch ∈ branches, MovesRight options branch.2) :
    renderLines options (outer + depth) branches ++ indentation options outer =
      indentation options outer ++
        behindFeeds (indentation options outer) (renderLines options depth branches) := by
  induction branches with
  | nil => simp [renderLines]
  | cons branch rest inductionHypothesis =>
    rw [List.forall_mem_cons] at below
    have indented : behindFeeds (indentation options outer) (indentation options depth) =
        indentation options depth :=
      behind_feeds_unbroken _ (indentation_unbroken indent depth)
    calc renderLines options (outer + depth) (branch :: rest) ++ indentation options outer
        _ = indentation options (outer + depth) ++ render options (outer + depth) branch.2 ++
              '\n' :: (renderLines options (outer + depth) rest ++ indentation options outer) := by
          simp [renderLines]
        _ = indentation options outer ++ indentation options depth ++
              behindFeeds (indentation options outer) (render options depth branch.2) ++
              '\n' :: (indentation options outer ++
                behindFeeds (indentation options outer) (renderLines options depth rest)) := by
          rw [inductionHypothesis below.2, below.1, indentation_add]
        _ = indentation options outer ++
              behindFeeds (indentation options outer)
                (renderLines options depth (branch :: rest)) := by
          simp [renderLines, indented]

/-- Children in parentheses, moved to the right. -/
theorem inline_moves_right (outer depth : Nat) {branches : List (String × SyntaxTree)}
    (below : ∀ branch ∈ branches, MovesRight options branch.2) :
    renderInline options (outer + depth) branches =
      behindFeeds (indentation options outer) (renderInline options depth branches) := by
  induction branches with
  | nil => rfl
  | cons branch rest inductionHypothesis =>
    rw [List.forall_mem_cons] at below
    rw [renderInline, renderInline, inductionHypothesis below.2, below.1]
    simp

/-- What stands behind a label, moved to the right. The indentation that is put behind the line feed
of the last line comes to stand before the closing brace. -/
theorem below_moves_right (indent : Unbroken options.indent) (outer depth : Nat) (kind : String)
    {branches : List (String × SyntaxTree)}
    (below : ∀ branch ∈ branches, MovesRight options branch.2) :
    belowText options (outer + depth) kind branches =
      behindFeeds (indentation options outer) (belowText options depth kind branches) := by
  cases branches with
  | nil => rfl
  | cons branch rest =>
    rw [belowText, belowText]
    split
    · have lines := lines_move_right indent outer (depth + 1) below
      have brace : behindFeeds (indentation options outer) (indentation options depth ++ ['}']) =
          indentation options depth ++ ['}'] := by
        apply behind_feeds_unbroken
        simp [indentation_unbroken indent depth]
      -- The indentation of the brace is parted: what is added goes to the lines before it.
      calc ' ' :: '{' :: '\n' :: (renderLines options (outer + depth + 1) (branch :: rest) ++
              (indentation options (outer + depth) ++ ['}']))
          _ = ' ' :: '{' :: '\n' :: (renderLines options (outer + (depth + 1)) (branch :: rest) ++
                indentation options outer ++ (indentation options depth ++ ['}'])) := by
            rw [indentation_add]
            simp [Nat.add_assoc]
          _ = ' ' :: '{' :: '\n' :: (indentation options outer ++
                behindFeeds (indentation options outer)
                  (renderLines options (depth + 1) (branch :: rest)) ++
                behindFeeds (indentation options outer) (indentation options depth ++ ['}'])) := by
            rw [lines, brace]
          _ = behindFeeds (indentation options outer) (' ' :: '{' :: '\n' ::
                (renderLines options (depth + 1) (branch :: rest) ++
                  (indentation options depth ++ ['}']))) := by
            simp
    · rw [List.forall_mem_cons] at below
      rw [below.1, inline_moves_right outer depth below.2]
      simp

/-- The outline of a tree without line feeds in its labels is moved to the right by further
bodies. -/
theorem moves_right (indent : Unbroken options.indent) {tree : SyntaxTree}
    (unbroken : UnbrokenTree tree) : MovesRight options tree := by
  apply induct_unbroken options _ unbroken
  intro top branches label below outer depth
  rw [render_eq, render_eq, behind_feeds_append, behind_feeds_unbroken _ label,
    below_moves_right indent outer depth top.kind below]

-- A line feed in a value ends no line of a body, so no indentation follows it.
example :
    let options := Options.forLanguage fun kind => kind = "block"
    let tree : SyntaxTree := .leaf { Node.bare "text" with value? := some "a\nb" }
    render options 1 tree = render options 0 tree ∧
      render options 0 tree ≠ behindFeeds (indentation options 1) (render options 0 tree) := by
  decide

/-! ## Counting line feeds -/

/-- Whether a tree is shown with a body: it has children, and its kind has a body. -/
def showsBody (options : Options) (tree : SyntaxTree) : Bool :=
  options.hasBody tree.label.kind && !tree.children.isEmpty

/-- The subtrees of a tree that are shown with a body. -/
def bodies (options : Options) (tree : SyntaxTree) : List SyntaxTree :=
  tree.subtrees.filter (showsBody options)

/-- The number of line feeds that bodies put into the outline of a tree. -/
def feedCount (options : Options) (tree : SyntaxTree) : Nat :=
  ((bodies options tree).map fun body => 1 + body.children.length).sum

/-- The bodies in a tree are its own, if it is shown with one, and those in its branches. -/
theorem bodies_node (top : Node) (branches : List (String × SyntaxTree)) :
    bodies options (.node top branches) =
      (if showsBody options (.node top branches) then [.node top branches] else []) ++
        branches.flatMap fun branch => bodies options branch.2 := by
  rw [bodies, Tree.subtrees_node, List.filter_cons, List.filter_flatMap]
  split <;> rfl

/-- The line feeds of a tree are those of its own body and those of its branches. -/
theorem feed_count_node (top : Node) (branches : List (String × SyntaxTree)) :
    feedCount options (.node top branches) =
      (if showsBody options (.node top branches) then 1 + branches.length else 0) +
        (branches.map fun branch => feedCount options branch.2).sum := by
  have below : ((branches.flatMap fun branch => bodies options branch.2).map fun body =>
      1 + body.children.length).sum =
        (branches.map fun branch => feedCount options branch.2).sum := by
    rw [List.map_flatMap, List.flatMap_def, List.sum_flatten, List.map_map]
    rfl
  rw [feedCount, bodies_node, List.map_append, List.sum_append, below]
  split
  · simp [Tree.children]
  · rfl

/-- Whether the line feeds of the outlines of a tree are those of its bodies. -/
def CountsFeeds (options : Options) (tree : SyntaxTree) : Prop :=
  ∀ depth, (render options depth tree).count '\n' = feedCount options tree

/-- Indentations count for nothing. -/
theorem indentation_feeds (indent : Unbroken options.indent) (depth : Nat) :
    (indentation options depth).count '\n' = 0 :=
  List.count_eq_zero.mpr (indentation_unbroken indent depth)

/-- Each line of a body ends with one line feed more than its child has. -/
theorem lines_feeds (indent : Unbroken options.indent) (depth : Nat)
    {branches : List (String × SyntaxTree)}
    (below : ∀ branch ∈ branches, CountsFeeds options branch.2) :
    (renderLines options depth branches).count '\n' =
      branches.length + (branches.map fun branch => feedCount options branch.2).sum := by
  induction branches with
  | nil => rfl
  | cons branch rest inductionHypothesis =>
    rw [List.forall_mem_cons] at below
    rw [renderLines, List.count_append, List.count_append, List.count_append,
      indentation_feeds indent depth, below.1 depth, inductionHypothesis below.2, List.length_cons,
      List.map_cons, List.sum_cons, List.count_singleton_self]
    omega

/-- Commas and blanks between children in parentheses are no line feeds. -/
theorem inline_feeds (depth : Nat) {branches : List (String × SyntaxTree)}
    (below : ∀ branch ∈ branches, CountsFeeds options branch.2) :
    (renderInline options depth branches).count '\n' =
      (branches.map fun branch => feedCount options branch.2).sum := by
  induction branches with
  | nil => rfl
  | cons branch rest inductionHypothesis =>
    rw [List.forall_mem_cons] at below
    have comma : [',', ' '].count '\n' = 0 := rfl
    rw [renderInline, List.count_append, List.count_append, comma, below.1 depth,
      inductionHypothesis below.2, List.map_cons, List.sum_cons, Nat.zero_add]

/-- The line feeds behind the label of a node: a body puts one behind its opening brace, and its
lines have theirs; parentheses put none. -/
theorem below_feeds (indent : Unbroken options.indent) (depth : Nat) (top : Node)
    {branches : List (String × SyntaxTree)}
    (below : ∀ branch ∈ branches, CountsFeeds options branch.2) :
    (belowText options depth top.kind branches).count '\n' =
      feedCount options (.node top branches) := by
  rw [feed_count_node]
  cases branches with
  | nil => simp [belowText, showsBody, Tree.children]
  | cons branch rest =>
    rw [belowText]
    by_cases body : options.hasBody top.kind = true
    · have shown : showsBody options (.node top (branch :: rest)) = true := by
        simp [showsBody, Tree.children, body]
      have lines := lines_feeds indent (depth + 1) below
      rw [if_pos body, if_pos shown, Nat.add_assoc, ← lines]
      simp [indentation_feeds indent depth, Nat.add_comm]
    · have inline : ¬ showsBody options (.node top (branch :: rest)) = true := by
        simp [showsBody, body]
      rw [List.forall_mem_cons] at below
      have others := inline_feeds depth below.2
      rw [if_neg body, if_neg inline]
      simp [below.1 depth, others]

/-- The line feeds in the outline of a tree without line feeds in its labels are those of its
bodies. -/
theorem feeds_counted (indent : Unbroken options.indent) {tree : SyntaxTree}
    (unbroken : UnbrokenTree tree) : CountsFeeds options tree := by
  apply induct_unbroken options _ unbroken
  intro top branches label below depth
  rw [render_eq, List.count_append, List.count_eq_zero.mpr label, Nat.zero_add,
    below_feeds indent depth top below]

/-! ## The law -/

/-- Of a tree whose kinds and values hold no line feed, with an indentation that holds none, the
outline inside any number of bodies is written behind any text as the outline inside no body with
that many indentations put behind every line feed. It has one line feed for each subtree that is
shown with a body, and one more for each child of that. -/
theorem deeper_outline_indented {options : Options} (indent : Unbroken options.indent)
    {tree : SyntaxTree} (unbroken : UnbrokenTree tree) (depth : Nat) (written : String) :
    write options depth tree written = written ++ String.ofList (render options depth tree) ∧
      render options depth tree =
        behindFeeds (indentation options depth) (render options 0 tree) ∧
      (render options depth tree).count '\n' =
        ((bodies options tree).map fun body => 1 + body.children.length).sum :=
  ⟨write_eq depth tree written, moves_right indent unbroken depth 0,
    feeds_counted indent unbroken depth⟩

/-- A script that holds a condition, with a block in its parentheses, and a stop, written inside two
bodies: the script has three line feeds and the block has two, and four blanks stand behind each. -/
theorem block_in_condition_indented :
    let options := Options.forLanguage fun kind => kind = "script" || kind = "block"
    let block : SyntaxTree := .node (Node.bare "block")
      [("0", .leaf { Node.bare "call" with value? := some "say" })]
    let tree : SyntaxTree := .node (Node.bare "script")
      [("0", .node (Node.bare "if") [("test", .leaf (Node.bare "bool")), ("then", block)]),
        ("1", .leaf (Node.bare "stop"))]
    Unbroken options.indent ∧ UnbrokenTree tree ∧
      write options 2 tree "main: " = "main: " ++ String.ofList (render options 2 tree) ∧
      render options 2 tree = behindFeeds [' ', ' ', ' ', ' '] (render options 0 tree) ∧
      (render options 2 tree).count '\n' = 5 := by
  intro options block tree
  have indent : Unbroken options.indent := by decide
  have unbroken : UnbrokenTree tree := by decide
  obtain ⟨behind, moved, feeds⟩ := deeper_outline_indented indent unbroken 2 "main: "
  have blanks : indentation options 2 = [' ', ' ', ' ', ' '] := by decide
  rw [blanks] at moved
  exact ⟨indent, unbroken, behind, moved, feeds.trans (by decide)⟩

end TreeDelta.Outline
