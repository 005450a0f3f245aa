import RazorLang.TagHelper.Basic
import RazorLang.Token.Basic
import RazorLang.Tree.Directive

/-!
# Syntax trees

A `Tree` is a token or a node over smaller trees, and every character of a document is in exactly one of
its tokens. A node can carry a `Label` that says what it means beyond its kind.

* `tokens` — the tokens in the order of the source; `text` — what they spell.
* `owned` — the same tokens, each with the kind of the node that holds it.
* `descendants` — the nodes below a node, each before those inside it.
-/

namespace RazorLang

/-- The kinds of nodes. -/
inductive NodeKind where
  | document
  | markupBlock
  | markupText
  /-- Markup that is not written: an escaping transition, or the tag `<text>`. -/
  | markupEphemeral
  | element
  | startTag
  | endTag
  | tagHelperElement
  | codeBlock
  | codeTransition
  | statement
  | statementBody
  | statementCode
  | explicitExpression
  | implicitExpression
  | expressionCode
  | codeEphemeral
  | directive
  | directiveBody
  | metaCode
  | razorComment
  deriving DecidableEq, Repr, Inhabited

namespace NodeKind

/-- What a kind of node is called in an outline. -/
def name : NodeKind → Text
  | document => "RazorDocument"
  | markupBlock => "MarkupBlock"
  | markupText => "MarkupTextLiteral"
  | markupEphemeral => "MarkupEphemeralTextLiteral"
  | element => "MarkupElement"
  | startTag => "MarkupStartTag"
  | endTag => "MarkupEndTag"
  | tagHelperElement => "MarkupTagHelperElement"
  | codeBlock => "CSharpCodeBlock"
  | codeTransition => "CSharpTransition"
  | statement => "CSharpStatement"
  | statementBody => "CSharpStatementBody"
  | statementCode => "CSharpStatementLiteral"
  | explicitExpression => "CSharpExplicitExpression"
  | implicitExpression => "CSharpImplicitExpression"
  | expressionCode => "CSharpExpressionLiteral"
  | codeEphemeral => "CSharpEphemeralTextLiteral"
  | directive => "RazorDirective"
  | directiveBody => "RazorDirectiveBody"
  | metaCode => "RazorMetaCode"
  | razorComment => "RazorComment"

/-- The nodes whose own tokens are markup. -/
def isMarkup : NodeKind → Bool
  | document | markupBlock | markupText | element | startTag | endTag | tagHelperElement => true
  | _ => false

end NodeKind

/-- What a directive that adds or removes tag helpers says. -/
structure LookupText where
  /-- The whole text. -/
  given : Text
  /-- The pattern for the names of tag helpers and the assembly, unless the text is malformed. -/
  target : Option (Text × Text)
  diagnostics : List Diagnostic
  deriving DecidableEq, Repr

/-- What a node means beyond its kind. -/
inductive Label where
  | addTagHelper (text : LookupText)
  | removeTagHelper (text : LookupText)
  | tagPrefix (value : Text) (diagnostics : List Diagnostic)
  | addImport (space : Text) (isStatic : Bool) (shortName : Option Text)
  | directive (use : DirectiveUse)
  | tagHelper (binding : Binding)
  deriving DecidableEq, Repr

/-- A token, or a node over smaller trees. -/
inductive Tree where
  | token (t : Token)
  | node (kind : NodeKind) (span : Span) (label : Option Label) (children : List Tree)
  deriving Inhabited

namespace Tree

/-- The span of a tree. -/
def span : Tree → Span
  | token t => t.span
  | node _ span _ _ => span

/-- The nodes directly under a node. -/
def children : Tree → List Tree
  | token _ => []
  | node _ _ _ children => children

/-- The span from the start of the first of some trees to the end of the last; of no trees, the empty
    span at a place. -/
def spanOf (trees : List Tree) (place : Span) : Span :=
  match trees.head?, trees.getLast? with
  | some first, some last =>
    ⟨first.span.path, first.span.start, last.span.stop - first.span.start.offset⟩
  | _, _ => { place with length := 0 }

/-- The node over some trees, which stands at a place if there are none. -/
def spanning (kind : NodeKind) (children : List Tree) (place : Span) (label : Option Label := none) :
    Tree :=
  node kind (spanOf children place) label children

/-- The node over some tokens. -/
def overTokens (kind : NodeKind) (tokens : List Token) (place : Span) : Tree :=
  spanning kind (tokens.map token) place

/-- The kind of a node. -/
def kind? : Tree → Option NodeKind
  | token _ => none
  | node kind _ _ _ => some kind

/-- The label of a node. -/
def label? : Tree → Option Label
  | token _ => none
  | node _ _ label _ => label

/-- The token that a tree consists of. -/
def token? : Tree → Option Token
  | token t => some t
  | node .. => none

/-- A node rather than a token. -/
def isNode : Tree → Bool
  | token _ => false
  | node .. => true

/-- The nodes directly under a node, without the tokens. -/
def childNodes (t : Tree) : List Tree := t.children.filter isNode

/-- The directive that a node stands for. -/
def directive? (t : Tree) : Option DirectiveUse :=
  match t.label? with
  | some (.directive use) => some use
  | _ => none

/-- The tag helpers that an element is bound to. -/
def binding? (t : Tree) : Option Binding :=
  match t.label? with
  | some (.tagHelper binding) => some binding
  | _ => none

mutual

/-- The tokens of a tree in the order of the source. -/
def tokens : Tree → List Token
  | token t => [t]
  | node _ _ _ children => tokensAll children

/-- The tokens of some trees in the order of the source. -/
def tokensAll : List Tree → List Token
  | [] => []
  | t :: rest => tokens t ++ tokensAll rest

end

/-- What a tree spells. -/
def text (t : Tree) : Text := contentOf t.tokens

/-- The first token of a tree. -/
def firstToken? (t : Tree) : Option Token := t.tokens.head?

mutual

/-- The tokens of a tree, each with the kind of the node that holds it directly. -/
def owned (owner : NodeKind) : Tree → List (NodeKind × Token)
  | token t => [(owner, t)]
  | node kind _ _ children => ownedAll kind children

/-- The tokens of some trees, each with the kind of the node that holds it directly. -/
def ownedAll (owner : NodeKind) : List Tree → List (NodeKind × Token)
  | [] => []
  | t :: rest => owned owner t ++ ownedAll owner rest

end

mutual

/-- A node and the nodes below it, each before those inside it. -/
def nodes : Tree → List Tree
  | token _ => []
  | node kind span label children => node kind span label children :: nodesAll children

/-- The nodes of some trees, each before those inside it. -/
def nodesAll : List Tree → List Tree
  | [] => []
  | t :: rest => nodes t ++ nodesAll rest

end

/-- The nodes below a node, each before those inside it. -/
def descendants (t : Tree) : List Tree := nodesAll t.children

/-- The blanks before a line of an outline. -/
def margin (depth : Nat) : Text := List.replicate (2 * depth) ' '

mutual

/-- The outline of a tree: a line for each node and token, indented by depth. -/
def outline (depth : Nat) : Tree → Text
  | token t => margin depth ++ t.kind.name ++ " " ++ Text.quoted t.content ++ "\n"
  | node kind span _ children =>
    margin depth ++ kind.name ++ " [" ++ Text.ofNat span.start.offset ++ ".." ++
      Text.ofNat span.stop ++ ")\n" ++ outlineAll (depth + 1) children

/-- The outlines of some trees at one depth. -/
def outlineAll (depth : Nat) : List Tree → Text
  | [] => []
  | t :: rest => outline depth t ++ outlineAll depth rest

end

end Tree

end RazorLang
