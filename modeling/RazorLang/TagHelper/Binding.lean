import RazorLang.TagHelper.Resolution

/-!
# Binding elements

An element is bound to the tag helpers in scope whose rules apply to its start tag. Binding changes the
kind and the label of the elements that are bound, and nothing else of the tree.
-/

namespace RazorLang

namespace Tree

/-- What is read off a start tag: the element's name and the names of its attributes. -/
structure StartTagNames where
  name : Text := []
  attributes : List Text := []
  /-- The kind of the last tree, if it was a token. -/
  previous : Option TokenKind := none
  /-- The quote that is open. -/
  quote : Option TokenKind := none

/-- Reads on by one tree of a start tag: text right behind `<` is the name, and text behind white
    space is the name of an attribute, unless it is in quotes. -/
def StartTagNames.next (s : StartTagNames) : Tree → StartTagNames
  | node .. => { s with previous := none }
  | token t =>
    let s' :=
      match t.kind, s.quote with
      | .doubleQuote, q | .singleQuote, q => { s with quote := Grammar.toggleQuote q t.kind }
      | .text, none =>
        match s.previous with
        | some .openAngle => { s with name := t.content }
        | some .whitespace | some .newLine => { s with attributes := s.attributes ++ [t.content] }
        | _ => s
      | _, _ => s
    { s' with previous := some t.kind }

/-- The name of an element and of its attributes, read off its start tag. -/
def startTagNames (startTag : Tree) : Text × List Text :=
  let s := startTag.children.foldl StartTagNames.next {}
  (s.name, s.attributes)

/-- The start tag of an element: the first node in it, if it is one. -/
def startTag? (kind : NodeKind) (children : List Tree) : Option Tree :=
  if kind = .element then (children.find? isNode).filter (·.kind? == some .startTag) else none

end Tree

namespace TagHelperScope

/-- The tag helpers that apply to an element, if there are any; its name must start with the tag
    prefix, and the enclosing element is known by its full name. -/
def bind? (c : TagHelperScope) (name : Text) (attributes : List Text) (parent : Option Text) :
    Option Binding := do
  let tag ←
    match c.tagPrefix with
    | some lead => Text.after? lead name
    | none => some name
  match c.helpers.filter (·.applies tag attributes parent) with
  | [] => none
  | helpers => return ⟨tag, helpers⟩

mutual

/-- Binds the elements of a tree that stands inside an element of a given name. -/
def bindTree (c : TagHelperScope) (parent : Option Text) : Tree → Tree
  | .token t => .token t
  | .node kind span label children =>
    match (Tree.startTag? kind children).map Tree.startTagNames with
    | none => .node kind span label (bindAll c parent children)
    | some (name, attributes) =>
      let children := bindAll c (some name) children
      match c.bind? name attributes parent with
      | some b => .node .tagHelperElement span (some (.tagHelper b)) children
      | none => .node kind span label children

/-- Binds the elements of some trees. -/
def bindAll (c : TagHelperScope) (parent : Option Text) : List Tree → List Tree
  | [] => []
  | t :: rest => bindTree c parent t :: bindAll c parent rest

end

/-- Tokens are left as they are. -/
theorem bindTree_token (c : TagHelperScope) (parent : Option Text) (t : Token) :
    c.bindTree parent (.token t) = .token t := by
  rw [bindTree]

end TagHelperScope

/-- A parsed document with its elements bound. -/
def ParsedDocument.bind (p : ParsedDocument) (c : TagHelperScope) : ParsedDocument :=
  { p with root := c.bindTree none p.root }

end RazorLang
