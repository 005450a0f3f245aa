import RazorLang.TagHelper.Binding

/-!
# Elements as generation sees them

An element is its start tag, its body and its end tag; a start tag is a list of attributes. The values of
attributes are read as text, with the span that they have in the source.
-/

namespace RazorLang

/-- A value of an attribute as it stands in the source. -/
structure AttributeValue where
  text : Text
  span : Span
  deriving DecidableEq, Repr

/-- An attribute of a start tag; the name of a directive attribute starts with its transition. -/
structure Attribute where
  name : Text
  value : Option AttributeValue
  deriving DecidableEq, Repr

namespace AttributeValue

/-- The value starts with a transition. -/
def isCode (v : AttributeValue) : Bool := v.text.head? == some '@'

/-- The code of a value: all of it but a transition at its start. -/
def code (v : AttributeValue) : AttributeValue :=
  match v.text with
  | '@' :: rest => ⟨rest, ⟨v.span.path, v.span.start.advance ['@'], Text.size rest⟩⟩
  | _ => v

end AttributeValue

namespace Attribute

/-- A directive attribute. -/
def isDirective (a : Attribute) : Bool := a.name.head? == some '@'

/-- What a directive attribute is called behind its transition. -/
def directiveName (a : Attribute) : Text := a.name.dropWhile (· == '@')

/-- The tree is a token of a given kind. -/
def isTokenOf (kind : TokenKind) (t : Tree) : Bool := (t.token?.map (·.kind)) == some kind

/-- The value in quotes behind its opening quote, and what follows its closing one. -/
def readQuoted (opener : Token) (inner : List Tree) : AttributeValue × List Tree :=
  let text := (inner.takeWhile (!isTokenOf opener.kind ·)).flatMap Tree.text
  (⟨text, ⟨opener.span.path, opener.span.start.advance opener.content, Text.size text⟩⟩,
    (inner.dropWhile (!isTokenOf opener.kind ·)).drop 1)

/-- The value behind the sign that follows the name of an attribute, and what follows it. -/
def readAssigned (trees : List Tree) : Option AttributeValue × List Tree :=
  match trees with
  | .token t :: inner =>
    if t.kind == .doubleQuote || t.kind == .singleQuote then
      let value := readQuoted t inner
      (some value.1, value.2)
    else if t.kind == .text then (some ⟨t.content, t.span⟩, inner)
    else (none, trees)
  | _ => (none, trees)

/-- The value that follows the name of an attribute, and what follows it. -/
def readValue (trees : List Tree) : Option AttributeValue × List Tree :=
  match trees with
  | .token sign :: rest => if sign.kind == .equals then readAssigned rest else (none, trees)
  | _ => (none, trees)

/-- The name of an attribute at a tree, and what follows it. -/
def readName? (t : Tree) (rest : List Tree) : Option (Text × List Tree) :=
  match t.token? with
  | none => none
  | some first =>
    if first.kind == .text then some (first.content, rest)
    else if first.kind == .transition then
      match rest with
      | second :: behind =>
        if isTokenOf .text second then some ('@' :: second.text, behind) else none
      | [] => none
    else none

theorem readQuoted_length_le (opener : Token) (inner : List Tree) :
    (readQuoted opener inner).2.length ≤ inner.length := by
  have := (List.dropWhile_suffix (l := inner) (!isTokenOf opener.kind ·)).length_le
  simp only [readQuoted, List.length_drop]
  omega

theorem readAssigned_length_le (trees : List Tree) :
    (readAssigned trees).2.length ≤ trees.length := by
  unfold readAssigned
  split
  · rename_i t inner
    have := readQuoted_length_le t inner
    split
    · simp only [List.length_cons]; omega
    · split <;> simp
  · exact Nat.le_refl _

theorem readValue_length_le (trees : List Tree) : (readValue trees).2.length ≤ trees.length := by
  unfold readValue
  split
  · rename_i sign rest
    have := readAssigned_length_le rest
    split
    · simp only [List.length_cons]; omega
    · exact Nat.le_refl _
  · exact Nat.le_refl _

theorem readName?_length_le {t : Tree} {rest behind : List Tree} {name : Text}
    (h : readName? t rest = some (name, behind)) : behind.length ≤ rest.length := by
  unfold readName? at h
  split at h
  · exact absurd h (by simp)
  · split at h
    · simp only [Option.some.injEq, Prod.mk.injEq] at h; exact h.2 ▸ Nat.le_refl _
    · split at h
      · split at h
        · split at h
          · simp only [Option.some.injEq, Prod.mk.injEq] at h
            simp [← h.2]
          · exact absurd h (by simp)
        · exact absurd h (by simp)
      · exact absurd h (by simp)

/-- The attributes in the trees behind the name of a start tag. -/
def readAll (trees : List Tree) : List Attribute :=
  match trees with
  | [] => []
  | t :: rest =>
    match _h : readName? t rest with
    | none => readAll rest
    | some (name, behind) => ⟨name, (readValue behind).1⟩ :: readAll (readValue behind).2
termination_by trees.length
decreasing_by
  · simp
  · have := readValue_length_le behind
    have := readName?_length_le ‹_›
    simp only [List.length_cons]
    omega

theorem readAll_skip {t : Tree} {rest : List Tree} (h : readName? t rest = none) :
    readAll (t :: rest) = readAll rest := by
  rw [readAll, h]

theorem readAll_name {t : Tree} {rest behind : List Tree} {name : Text}
    (h : readName? t rest = some (name, behind)) :
    readAll (t :: rest) = ⟨name, (readValue behind).1⟩ :: readAll (readValue behind).2 := by
  rw [readAll, h]

end Attribute

namespace Tree

/-- The attributes of a start tag. -/
def attributes (startTag : Tree) : List Attribute := Attribute.readAll (startTag.children.drop 2)

/-- The name in a start tag. -/
def startTagName (startTag : Tree) : Text :=
  Grammar.tagName (startTag.children.filterMap token?)

/-- The last two tokens of a start tag are a slash and `>`. -/
def isSelfClosing (startTag : Tree) : Bool :=
  match (startTag.children.filterMap token?).reverse with
  | last :: previous :: _ => last.kind == .closeAngle && previous.kind == .slash
  | _ => false

/-- A start tag with code or a transition in it. -/
def hasCode (startTag : Tree) : Bool :=
  startTag.children.any fun t =>
    match t with
    | token t => t.kind == .transition
    | node .. => true

/-- An element with a start tag that has code in it: in a component it needs frames of its own. -/
def needsFrames (children : List Tree) : Bool :=
  (children.find? isNode).any fun t => t.kind? == some .startTag && t.hasCode

end Tree

/-- The parts of an element; `α` is what each part comes with. -/
structure ElementParts (α : Type) where
  startTag : Option Tree
  body : List (Tree × α)
  endTag : Option Tree

namespace ElementParts

/-- Takes the end tag off the parts of an element behind its start tag. -/
def withoutEndTag {α : Type} (startTag : Option Tree) (nodes : List (Tree × α)) : ElementParts α :=
  match nodes.getLast? with
  | some (t, _) =>
    if t.kind? == some .endTag then ⟨startTag, nodes.dropLast, some t⟩ else ⟨startTag, nodes, none⟩
  | none => ⟨startTag, [], none⟩

/-- The parts of an element with the given trees. -/
def ofChildren {α : Type} (children : List (Tree × α)) : ElementParts α :=
  match children.filter (·.1.isNode) with
  | [] => ⟨none, [], none⟩
  | (t, a) :: rest =>
    if t.kind? == some .startTag then withoutEndTag (some t) rest
    else withoutEndTag none ((t, a) :: rest)

/-- The attributes of the start tag. -/
def attributes {α : Type} (p : ElementParts α) : List Attribute :=
  (p.startTag.map Tree.attributes).getD []

/-- The start tag closes the element. -/
def isSelfClosing {α : Type} (p : ElementParts α) : Bool := p.startTag.any Tree.isSelfClosing

end ElementParts

end RazorLang
