import RazorLang.Generation.Element
import RazorLang.Generation.Literal

/-!
# What a document emits

Before any code is printed, a tree is read into a list of emissions in the order of the document: markup,
expressions, statements, and where sections, tag helpers, elements, components and fragments begin and
end. Everything else of a tree emits nothing. `joinMarkup` puts adjacent pieces of markup together.
-/

namespace RazorLang

/-- How an element with a tag helper is closed in the source. -/
inductive TagMode where
  | selfClosing
  | startTagOnly
  | startTagAndEndTag
  deriving DecidableEq, Repr

/-- The name of a tag mode. -/
def TagMode.name : TagMode → Text
  | selfClosing => "SelfClosing"
  | startTagOnly => "StartTagOnly"
  | startTagAndEndTag => "StartTagAndEndTag"

/-- The value that generated code gives to an attribute. -/
inductive AttributeCode where
  /-- An attribute without a value is set. -/
  | isSet
  | literal (t : Text)
  | code (t : Text) (span : Span)
  deriving DecidableEq, Repr

/-- What a place of a document makes the generated code do. -/
inductive Emission where
  | markup (t : Text)
  | expression (t : Text) (span : Span)
  | statement (t : Text) (span : Span)
  | sectionStart (name : Text)
  | sectionEnd
  | helperStart (tag : Text) (mode : TagMode)
  | helperContentEnd
  | helperCreate (type : Text)
  | helperProperty (type property given : Text) (value : AttributeCode)
  | helperAttribute (name value : Text)
  | helperEnd
  | elementStart (name : Text)
  | elementEnd
  | componentStart (type : Text)
  | componentEnd
  | setAttribute (name : Text) (value : AttributeCode)
  | key (value : AttributeCode)
  | reference (component : Option Text) (value : AttributeCode)
  | callback (name : Text) (value : AttributeCode)
  | fragmentStart (name : Text)
  | fragmentEnd
  deriving DecidableEq, Repr

namespace Emission

/-- Puts adjacent pieces of markup together; empty markup emits nothing. -/
def joinMarkup : List Emission → List Emission
  | [] => []
  | .markup t :: rest =>
    match joinMarkup rest with
    | .markup u :: behind => .markup (t ++ u) :: behind
    | joined => if t.isEmpty then joined else .markup t :: joined
  | e :: rest => e :: joinMarkup rest

end Emission

namespace AttributeValue

/-- The value as code, or else as a literal. -/
def toCode (v : AttributeValue) (asCode : Bool) : AttributeCode :=
  if asCode then .code v.code.text v.code.span else .literal v.text

end AttributeValue

/-- What a tree emits as a whole, and what the body of an element emits. -/
structure Emitted where
  whole : List Emission := []
  body : List Emission := []
  deriving Inhabited

namespace Emitted

/-! ## Tag helpers of pages -/

/-- The property of a tag helper that an attribute sets. -/
def boundIgnoringCase? (h : TagHelper) (a : Attribute) : Option BoundAttribute :=
  h.attributes.find? fun b => Text.sameIgnoringCase b.name a.name

/-- What one tag helper emits behind the content of its element. -/
def ofHelper (attributes : List Attribute) (h : TagHelper) : List Emission :=
  .helperCreate h.typeName :: attributes.filterMap fun a => do
    let b ← boundIgnoringCase? h a
    let v ← a.value
    return .helperProperty h.typeName b.property a.name (v.toCode (!isStringType b.type || v.isCode))

/-- Attributes that no tag helper knows, as far as they are text. -/
def plainAttributes (attributes : List Attribute) (helpers : List TagHelper) : List Emission :=
  let bound := (helpers.flatMap fun h =>
    attributes.filter fun a => (boundIgnoringCase? h a).isSome).map (·.name)
  attributes.filterMap fun a =>
    let value := (a.value.map (·.text)).getD []
    if bound.contains a.name || value.contains '@' then none else some (.helperAttribute a.name value)

/-- How an element is closed. -/
def modeOf {α : Type} (p : ElementParts α) : TagMode :=
  if p.isSelfClosing then .selfClosing
  else if p.endTag.isNone then .startTagOnly
  else .startTagAndEndTag

/-- What an element of a page with tag helpers emits. -/
def ofTagHelpers (p : ElementParts Emitted) (body : List Emission) (tag : Text)
    (helpers : List TagHelper) : List Emission :=
  .helperStart tag (modeOf p) :: body ++ .helperContentEnd ::
    helpers.flatMap (ofHelper p.attributes) ++ plainAttributes p.attributes helpers ++ [.helperEnd]

/-! ## Components -/

/-- What a directive attribute emits; one without a value emits nothing. -/
def ofDirectiveAttribute (component : Option Text) (a : Attribute) : List Emission :=
  match a.value with
  | none => []
  | some v =>
    let value := v.toCode true
    if a.directiveName == "key".toList then [.key value]
    else if a.directiveName == "ref".toList then [.reference component value]
    else [.callback a.directiveName value]

/-- What an attribute of an element in a component emits. -/
def ofElementAttribute (a : Attribute) : List Emission :=
  if a.isDirective then ofDirectiveAttribute none a
  else
    match a.value with
    | some v => [.setAttribute a.name (v.toCode v.isCode)]
    | none => [.setAttribute a.name .isSet]

/-- What an attribute of a component emits. -/
def ofComponentAttribute (c : TagHelper) (a : Attribute) : List Emission :=
  if a.isDirective then ofDirectiveAttribute (some c.typeName) a
  else
    let bound := c.attributes.find? (·.name == a.name)
    let name := (bound.map (·.property)).getD a.name
    match a.value with
    | none => [.setAttribute name .isSet]
    | some v => [.setAttribute name (v.toCode (bound.any (!isStringType ·.type) || v.isCode))]

/-- What an element emits that needs frames of its own. -/
def ofElement (startTag : Tree) (body : List Emission) : List Emission :=
  .elementStart startTag.startTagName :: startTag.attributes.flatMap ofElementAttribute ++ body ++
    [.elementEnd]

/-- An element that stands for child content of the component around it. -/
def isFragment (t : Tree) : Bool := t.binding?.any fun b => b.helpers.any TagHelper.isChildContent

/-- What the child content of a name emits. -/
def ofFragment (name : Text) (body : List Emission) : List Emission :=
  .fragmentStart name :: body ++ [.fragmentEnd]

/-- What a component emits: its attributes, the child content that has a name, and all other content. -/
def ofComponent (p : ElementParts Emitted) (c : TagHelper) : List Emission :=
  let (fragments, content) := p.body.partition fun (t, _) => isFragment t
  let named := fragments.flatMap fun (t, e) =>
    match t.binding? with
    | some b => ofFragment b.tag e.body
    | none => []
  let rest :=
    if content.any fun (t, _) => !Text.isBlank t.text then
      ofFragment "ChildContent" (content.flatMap (·.2.whole))
    else []
  .componentStart c.typeName :: p.attributes.flatMap (ofComponentAttribute c) ++ named ++ rest ++
    [.componentEnd]

/-! ## Trees -/

/-- What an element with tag helpers emits, or its children where no helper counts. -/
def ofBound (component : Bool) (b : Binding) (p : ElementParts Emitted) (body : List Emission)
    (children : List Emission) : List Emission :=
  if component then
    match b.component? with
    | some c => ofComponent p c
    | none => children
  else
    match b.helpers.filter (·.kind == .tagHelper) with
    | [] => children
    | helpers => ofTagHelpers p body b.tag helpers

/-- What a directive emits: only a section of a page is part of the body. -/
def ofDirective (component : Bool) (use : DirectiveUse) (block : List Emission) : List Emission :=
  match use.firstText? with
  | some name =>
    if use.directive = .defineSection && !component then .sectionStart name :: block ++ [.sectionEnd]
    else []
  | none => []

/-- What a node emits, given what its children emit. -/
def ofNode (component : Bool) (kind : NodeKind) (span : Span) (label : Option Label)
    (children : List (Tree × Emitted)) : Emitted :=
  let all := children.flatMap (·.2.whole)
  let parts := ElementParts.ofChildren children
  let body := parts.body.flatMap (·.2.whole)
  match kind with
  | .markupEphemeral | .razorComment | .metaCode | .codeTransition => {}
  | .implicitExpression | .explicitExpression =>
    match children.find? fun (t, _) => t.kind? == some .expressionCode with
    | some (t, _) => { whole := [.expression t.text t.span] }
    | none => {}
  | .statementCode =>
    if label.isSome then {}
    else { whole := [.statement (children.flatMap fun (t, _) => t.text) span] }
  | .directive =>
    match label with
    | some (.directive use) => { whole := ofDirective component use all }
    | _ => {}
  | .directiveBody =>
    match children.find? fun (t, _) => t.kind? == some .markupBlock with
    | some (_, e) => { whole := e.whole }
    | none => {}
  | .tagHelperElement =>
    match label with
    | some (.tagHelper b) => ⟨ofBound component b parts body all, body⟩
    | _ => ⟨all, body⟩
  | .element =>
    if component && Tree.needsFrames (children.map Prod.fst) then
      match parts.startTag with
      | some startTag => ⟨ofElement startTag body, body⟩
      | none => ⟨all, body⟩
    else ⟨all, body⟩
  | _ => ⟨all, body⟩

/-- What a token emits, given whether it is markup. -/
def ofToken (isMarkup : Bool) (t : Token) : Emitted :=
  if isMarkup then { whole := [.markup t.content] } else {}

mutual

/-- What a tree emits, given whether the node around it is markup. -/
def ofTree (component isMarkup : Bool) : Tree → Emitted
  | .token t => ofToken isMarkup t
  | .node kind span label children =>
    ofNode component kind span label (ofTrees component kind.isMarkup children)

/-- What some trees emit, each with the tree. -/
def ofTrees (component isMarkup : Bool) : List Tree → List (Tree × Emitted)
  | [] => []
  | t :: rest => (t, ofTree component isMarkup t) :: ofTrees component isMarkup rest

end

end Emitted

/-- What a document emits, in order. -/
def Tree.emissions (component : Bool) (root : Tree) : List Emission :=
  Emission.joinMarkup (Emitted.ofTree component false root).whole

/-- The types of the tag helpers that some emissions create, one for each field. -/
def Emission.helperTypes (emissions : List Emission) : List Text :=
  emissions.foldl (fun types e =>
    match e with
    | .helperCreate type =>
      if types.any (fieldName · == fieldName type) then types else types ++ [type]
    | _ => types) []

end RazorLang
