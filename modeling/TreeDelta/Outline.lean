import TreeDelta.Node
import TreeDelta.Text.Quoted

/-!
# Outlines of trees

An outline shows a tree in a form for readers. A node is its kind, followed on request by a bar and
its value. The children of most nodes stand behind it in parentheses, on the same line. The children
of a node whose kind has a body stand in braces, each on a line of its own, indented by the number
of bodies around it. Which kinds have bodies is a matter of the language that the tree is in, so it
is one of the options.
-/

namespace TreeDelta.Outline

/-- How an outline is written. -/
structure Options where
  /-- Whether values are shown. -/
  showValues : Bool
  /-- Whether a value that holds a blank is put between backquotes. -/
  backquote : Bool
  /-- The indentation of one body. -/
  indent : String
  /-- Whether a kind has a body. -/
  hasBody : String → Bool

namespace Options

/-- No values, no bodies and an indentation of two blanks. -/
def plain : Options := ⟨false, false, "  ", fun _ => false⟩

/-- The options for a language: values are shown, and the language knows which kinds have bodies. -/
def forLanguage (hasBody : String → Bool) : Options :=
  { plain with showValues := true, hasBody := hasBody }

/-- The text of a truth value. -/
def flagText (flag : Bool) : String := if flag then "true" else "false"

/-- The options in words, without the choice of bodies. -/
def describe (options : Options) : String :=
  "PrettyOptions \x7b show_values: " ++ flagText options.showValues
    ++ ", backquote_values_with_whitespace: " ++ flagText options.backquote
    ++ ", indent: " ++ Text.quoted options.indent ++ ", .. \x7d"

end Options

/-- A value in an outline. -/
def valueText (options : Options) (value : String) : List Char :=
  if options.backquote && Text.hasBlank value then '`' :: (value.toList ++ ['`'])
  else value.toList

/-- A node in an outline, without its children. -/
def labelText (options : Options) (node : Node) : List Char :=
  node.kind.toList ++
    match options.showValues, node.value? with
    | true, some value => '|' :: valueText options value
    | _, _ => []

/-- The indentation inside `depth` bodies. -/
def indentation (options : Options) (depth : Nat) : List Char :=
  (List.replicate depth options.indent.toList).flatten

mutual

/-- The outline of a tree inside `depth` bodies. -/
def render (options : Options) (depth : Nat) : SyntaxTree → List Char
  | .node top [] => labelText options top
  | .node top ((_, first) :: rest) =>
    labelText options top ++
      if options.hasBody top.kind then
        [' ', '{', '\n']
          ++ (indentation options (depth + 1) ++ render options (depth + 1) first ++ ['\n'])
          ++ renderLines options (depth + 1) rest ++ indentation options depth ++ ['}']
      else ['('] ++ render options depth first ++ renderInline options depth rest ++ [')']

/-- The further children in a body, each on a line of its own. -/
def renderLines (options : Options) (depth : Nat) : List (String × SyntaxTree) → List Char
  | [] => []
  | (_, child) :: rest =>
    indentation options depth ++ render options depth child ++ ['\n']
      ++ renderLines options depth rest

/-- The further children in parentheses, each behind a comma. -/
def renderInline (options : Options) (depth : Nat) : List (String × SyntaxTree) → List Char
  | [] => []
  | (_, child) :: rest =>
    [',', ' '] ++ render options depth child ++ renderInline options depth rest

end

/-- The outline of a tree. -/
def text (options : Options) (tree : SyntaxTree) : String :=
  String.ofList (render options 0 tree)

end TreeDelta.Outline
