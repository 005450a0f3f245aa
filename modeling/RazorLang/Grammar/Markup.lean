import RazorLang.Grammar.Transition

/-!
# Markup

Text, tags and the nesting of elements. A `MarkupRun` keeps the elements that are open, the innermost
first; an end tag closes the innermost element of its name, and elements left open inside it are closed
there and reported.
-/

namespace RazorLang

/-- The elements that have no content and no end tag. -/
def voidElements : List Text :=
  ["area", "base", "br", "col", "embed", "hr", "img", "input", "link", "meta", "param", "source",
    "track", "wbr"]

/-- An element that has no content and no end tag. -/
def isVoidElement (name : Text) : Bool := voidElements.any (Text.sameIgnoringCase · name)

/-- An element whose end tag has not come yet. -/
structure OpenElement where
  name : Text
  startTag : Tree
  content : List Tree := []

/-- The node of an element that has its start tag, its content and perhaps an end tag. -/
def OpenElement.close (e : OpenElement) (endTag : List Tree) : Tree :=
  Tree.spanning .element (e.startTag :: e.content ++ endTag) default

/-- A run of markup being read. -/
structure MarkupRun where
  /-- The trees outside of all open elements. -/
  trees : List Tree := []
  /-- The open elements, the innermost first. -/
  opened : List OpenElement := []
  /-- Text that is not a node yet. -/
  pending : List Token := []
  /-- An element outside of all others is complete. -/
  complete : Bool := false

namespace MarkupRun

/-- Adds text. -/
def addText (m : MarkupRun) (tokens : List Token) : MarkupRun :=
  { m with pending := m.pending ++ tokens }

/-- Puts a tree into the innermost open element. -/
def place (m : MarkupRun) (t : Tree) : MarkupRun :=
  match m.opened with
  | [] => { m with trees := m.trees ++ [t] }
  | e :: outer => { m with opened := { e with content := e.content ++ [t] } :: outer }

/-- Makes a node of the text so far. -/
def flush (m : MarkupRun) : MarkupRun :=
  if m.pending.isEmpty then m
  else { m with pending := [] }.place (Tree.overTokens .markupText m.pending default)

/-- Puts a tree behind the text so far. -/
def push (m : MarkupRun) (t : Tree) : MarkupRun := m.flush.place t

/-- Puts a complete element into the innermost open one. -/
def placeElement (m : MarkupRun) (t : Tree) : MarkupRun :=
  { m with complete := m.complete || m.opened.isEmpty }.place t

/-- Opens an element. -/
def openElement (m : MarkupRun) (name : Text) (startTag : Tree) : MarkupRun :=
  { m with opened := { name, startTag } :: m.opened }

/-- The report of an element without an end tag. -/
def unclosed (e : OpenElement) : Diagnostic := ⟨.unclosedElement e.name, e.startTag.span⟩

/-- Closes the `n` innermost elements without end tags; gives the reports too. -/
def closeInnermost : Nat → MarkupRun → MarkupRun × List Diagnostic
  | 0, m => (m, [])
  | n + 1, m =>
    match m.opened with
    | [] => (m, [])
    | e :: outer =>
      let (m, rest) := closeInnermost n ({ m with opened := outer }.placeElement (e.close []))
      (m, unclosed e :: rest)

/-- Closes the innermost element of a name by an end tag, unless there is no such element. -/
def close? (m : MarkupRun) (name : Text) (endTag : Tree) : Option (MarkupRun × List Diagnostic) := do
  let n ← m.opened.findIdx? fun e => Text.sameIgnoringCase e.name name
  let (m, reports) := closeInnermost n m
  match m.opened with
  | [] => return (m, reports)
  | e :: outer => return ({ m with opened := outer }.placeElement (e.close [endTag]), reports)

/-- Ends the run: all elements are closed. -/
def finish (m : MarkupRun) : List Tree × List Diagnostic :=
  let m := m.flush
  let (m, reports) := closeInnermost m.opened.length m
  (m.trees, reports)

end MarkupRun

namespace Grammar

/-! ## Tags -/

/-- What begins with `<`. -/
inductive Tag where
  | opening (name : Text) (node : Tree) (selfClosing : Bool)
  | closing (name : Text) (node : Tree)
  /-- A comment, a declaration, or a `<` that begins no tag. -/
  | text (tokens : List Token)

/-- `@@` is next. -/
def escapeAhead : Grammar Bool := do return (← kindAt? 1) == some .transition

/-- The characters around the next one are letters or digits, as in an address for mail. -/
def addressAhead : Grammar Bool := do
  let r ← get
  let isPart (c : Char) : Bool := Text.isLetter c || Text.isNumber c
  match r.before, r.tokenizer.rest with
  | some b, _ :: a :: _ => return isPart b && isPart a
  | _, _ => return false

/-- Takes tokens up to `>`. -/
def declaration : Grammar (List Token) :=
  loop (fun tokens => do
    match ← bump with
    | [] => return .done tokens
    | taken@(t :: _) =>
      if t.kind == .closeAngle then return .done (tokens ++ taken)
      return .again (tokens ++ taken)) []

/-- Takes an HTML comment. -/
def htmlComment : Grammar (List Token) := do
  loop (fun tokens => do
    match ← bump with
    | [] => return .done tokens
    | taken@(t :: _) =>
      if t.kind == .doubleHyphen && (← isAt .closeAngle) then
        return .done (tokens ++ taken ++ (← bump))
      return .again (tokens ++ taken)) (← take 3)

/-- How far a start tag has been read. -/
structure StartTagState where
  trees : List Tree
  /-- The quote that is open. -/
  quote : Option TokenKind := none
  /-- The kind of the last token. -/
  previous : TokenKind := .text
  selfClosing : Bool := false

/-- The quote that is open behind a quote. -/
def toggleQuote (quote : Option TokenKind) (kind : TokenKind) : Option TokenKind :=
  match quote with
  | none => some kind
  | some opened => if opened == kind then none else quote

/-- One step along a start tag. -/
def startTagTurn (c : Surroundings) (s : StartTagState) : Grammar (Turn StartTagState) := do
  match ← kind? with
  | none => return .done s
  | some kind =>
    let plain (quote : Option TokenKind) : Grammar (Turn StartTagState) := do
      return .again
        { s with trees := s.trees ++ (← bump).map Tree.token, quote, previous := kind }
    match kind with
    | .closeAngle =>
      if s.quote.isSome then plain s.quote
      else return .done { s with trees := s.trees ++ (← bump).map Tree.token }
    | .slash =>
      if s.quote.isNone && (← kindAt? 1) == some .closeAngle then
        return .done { s with trees := s.trees ++ (← take 2).map Tree.token, selfClosing := true }
      plain s.quote
    | .openAngle => if s.quote.isSome then plain s.quote else return .done s
    | .doubleQuote | .singleQuote => plain (toggleQuote s.quote kind)
    | .transition =>
      let named := c.fileKind.isComponent && s.quote.isNone && s.previous == .whitespace
      if named || (← escapeAhead) || (← addressAhead) then plain s.quote
      else
        let code ← codeTransition c
        switchTo .html
        return .again { s with trees := s.trees ++ [code], previous := kind }
    | .commentTransition =>
      return .again { s with trees := s.trees ++ [← razorComment], previous := kind }
    | _ => plain s.quote

/-- The text of the first text token. -/
def tagName (tokens : List Token) : Text :=
  ((tokens.find? (·.kind == .text)).map (·.content)).getD []

/-- The kind of a tag's node: inside code, `<text>` is not written. -/
def tagKind (kind : NodeKind) (textTag : Bool) (name : Text) : NodeKind :=
  if textTag && name == "text".toList then .markupEphemeral else kind

/-- The start tag that is next. -/
def startTag (c : Surroundings) (textTag : Bool) : Grammar Tag := do
  let place ← here
  let lead ← take 2
  let name := tagName lead
  let s ← loop (startTagTurn c) { trees := lead.map Tree.token }
  return .opening name (Tree.spanning (tagKind .startTag textTag name) s.trees place) s.selfClosing

/-- The end tag that is next. -/
def endTag (textTag : Bool) : Grammar Tag := do
  let place ← here
  let lead ← take 2
  let named ← single .text
  let name := contentOf named
  let blank ← takeTrivia true
  let closing ← single .closeAngle
  let tokens := lead ++ named ++ blank ++ closing
  return .closing name (Tree.overTokens (tagKind .endTag textTag name) tokens place)

/-- What the next `<` begins. -/
def tag (c : Surroundings) (textTag : Bool) : Grammar Tag := do
  match ← peekNth? 1 with
  | some t =>
    match t.kind with
    | .slash => endTag textTag
    | .bang =>
      if (← kindAt? 2) == some .doubleHyphen then return .text (← htmlComment)
      return .text (← declaration)
    | .questionMark => return .text (← declaration)
    | .text =>
      if t.content.head?.any Text.isLetter then startTag c textTag else return .text (← bump)
    | _ => return .text (← bump)
  | none => return .text (← bump)

/-! ## Runs of markup -/

/-- White space and the line break behind an element in code. -/
def lineRemainder : Grammar (List Token) := do
  let n ← placeBehind isBlank 0
  if (← kindAt? n) == some .newLine then take (n + 1) else return []

/-- The byte offset of the brace that closes a section, given the braces open, or else the braces open
    behind the text. -/
def sectionEnd (offset depth : Nat) : Text → Nat ⊕ Nat
  | [] => .inr depth
  | c :: t =>
    if c == '\x7b' then sectionEnd (offset + c.utf8Size) (depth + 1) t
    else if c == '\x7d' then
      match depth with
      | 0 => .inl offset
      | d + 1 => sectionEnd (offset + c.utf8Size) d t
    else sectionEnd (offset + c.utf8Size) depth t

/-- `<text>` may stand here for markup that is not an element: right inside code, or inside such a
    tag. -/
def textTagAllowed (scope : MarkupScope) (m : MarkupRun) : Bool :=
  scope = .element &&
    match m.opened with
    | [] => true
    | [e] => e.name == "text".toList
    | _ => false

/-- Takes the tag that is next into a run of markup. -/
def takeTag (c : Surroundings) (scope : MarkupScope) (m : MarkupRun) : Grammar MarkupRun := do
  let place ← here
  match ← tag c (textTagAllowed scope m) with
  | .text tokens => return m.addText tokens
  | .opening name node selfClosing =>
    let m := m.flush
    if selfClosing || isVoidElement name then
      return m.placeElement (Tree.spanning .element [node] place)
    return m.openElement name node
  | .closing name node =>
    let m := m.flush
    match m.close? name node with
    | some (m, reports) =>
      reportAll reports
      return m
    | none =>
      if !isVoidElement name then report (.unexpectedEndTag name) node.span
      return m.placeElement (Tree.spanning .element [node] place)

/-- Takes the transition that is next, and what it leads to, into a run of markup. -/
def takeTransition (c : Surroundings) (m : MarkupRun) : Grammar MarkupRun := do
  if ← escapeAhead then
    let first ← nodeOver .markupEphemeral (← bump)
    return (m.push first).addText (← bump)
  if ← addressAhead then return m.addText (← bump)
  return m.push (← codeTransition c)

/-- One step along a run of markup: the run so far, and the braces open in a section. -/
def markupTurn (c : Surroundings) (scope : MarkupScope) :
    MarkupRun × Nat → Grammar (Turn (MarkupRun × Nat))
  | (m, depth) => do
    switchTo .html
    if scope = .element && m.complete && m.opened.isEmpty then
      return .done (m.addText (← lineRemainder), depth)
    let plain : Grammar (Turn (MarkupRun × Nat)) := do
      return .again (m.addText (← bump), depth)
    match ← peek? with
    | none => return .done (m, depth)
    | some t =>
      match t.kind with
      | .transition => return .again (← takeTransition c m, depth)
      | .commentTransition => return .again (m.push (← razorComment), depth)
      | .openAngle => return .again (← takeTag c scope m, depth)
      | .newLine =>
        if scope = .line then return .done (m.addText (← bump), depth) else plain
      | .text =>
        if scope = .section then
          match sectionEnd 0 depth t.content with
          | .inr depth => return .again (m.addText (← bump), depth)
          | .inl 0 => return .done (m, depth)
          | .inl offset => return .done (m.addText (← bumpPart offset), depth)
        else plain
      | _ => plain

/-- A run of markup up to the end of its scope. -/
def markupRun (c : Surroundings) (scope : MarkupScope) : Grammar (List Tree) := do
  let (m, _) ← loop (markupTurn c scope) ({}, 0)
  let (trees, reports) := m.finish
  reportAll reports
  return trees

/-- Markup and the code in it. Markup inside of code is read by the same rule, from a place further
    on; otherwise the reader is stalled. -/
def markup (fileKind : FileKind) (scope : MarkupScope) (r : Reader) : List Tree × Reader :=
  let inner (scope : MarkupScope) (r' : Reader) : List Tree × Reader :=
    if r'.left < r.left then markup fileKind scope r' else ([], { r' with stalled := true })
  markupRun ⟨fileKind, inner⟩ scope r
termination_by r.left

end Grammar

end RazorLang
