import RazorLang.Grammar.Block

/-!
# Directives

What follows the name of a directive: values up to the end of the line, a text for the tag helpers, a
block of members or a block of markup. A directive that lacks what it needs is reported, and the rest of
its line stays markup.
-/

namespace RazorLang.Grammar

/-- A value of a directive over the tokens that it consists of. -/
def valueOf (kind : ValueKind) (tokens : List Token) (place : Span) : DirectiveValue :=
  let text := contentOf tokens
  ⟨kind, text, { place with length := Text.size text }⟩

/-! ## Values -/

/-- Something in brackets behind some tokens, which the name of a type may go on behind. -/
def bracketTurn (opener closer : TokenKind) (tokens : List Token) :
    Grammar (Turn (List Token)) := do
  let (taken, closed) ← takeBalanced opener closer
  if closed then return .again (tokens ++ taken) else return .done (tokens ++ taken)

/-- One step along the name of a type. -/
def typeTurn (tokens : List Token) : Grammar (Turn (List Token)) := do
  match ← kind? with
  | some .dot | some .doubleColon =>
    if ← memberAt 1 then return .again (tokens ++ (← take 2)) else return .done tokens
  | some .lessThan => bracketTurn .lessThan .greaterThan tokens
  | some .openBracket => bracketTurn .openBracket .closeBracket tokens
  | some .questionMark => return .again (tokens ++ (← bump))
  | _ => return .done tokens

/-- The name of a type with its arguments, or a tuple of types; no tokens if there is none. -/
def typeName : Grammar (List Token) := do
  match ← kind? with
  | some .identifier | some .keyword => loop typeTurn (← bump)
  | some .openParen =>
    let (taken, closed) ← takeBalanced .openParen .closeParen
    if closed then loop typeTurn taken else return taken
  | _ => return []

/-- One step along a name with dots. -/
def dottedTurn (tokens : List Token) : Grammar (Turn (List Token)) := do
  if (← isAt .dot) && (← memberAt 1) then return .again (tokens ++ (← take 2))
  return .done tokens

/-- A name with dots; no tokens if there is none. -/
def dottedName : Grammar (List Token) := do
  if ← memberAt 0 then loop dottedTurn (← bump) else return []

/-- The next token if it is of a given kind. -/
def single (kind : TokenKind) : Grammar (List Token) := do
  if ← isAt kind then bump else return []

/-- The rest of the line. -/
def lineRest : Grammar (List Token) := takeWhile (· != .newLine)

/-- The tokens of a value. -/
def valueTokens : ValueKind → Grammar (List Token)
  | .type => typeName
  | .member => single .identifier
  | .namespaceName => dottedName
  | .optionalString => single .string
  | .text => lineRest

/-- The node of a directive's piece of code, unless it is empty. -/
def codePiece (tokens : List Token) : Grammar (List Tree) := do
  if tokens.isEmpty then return [] else return [← nodeOver .statementCode tokens]

/-- What a directive has been read to. -/
structure DirectiveParts where
  trees : List Tree := []
  values : List DirectiveValue := []
  /-- Nothing that the directive needs is missing. -/
  complete : Bool := true

namespace DirectiveParts

/-- Adds trees. -/
def add (p : DirectiveParts) (trees : List Tree) : DirectiveParts :=
  { p with trees := p.trees ++ trees }

/-- Adds a value. -/
def addValue (p : DirectiveParts) (v : DirectiveValue) : DirectiveParts :=
  { p with values := p.values ++ [v] }

/-- Notes that something is missing. -/
def broken (p : DirectiveParts) : DirectiveParts := { p with complete := false }

end DirectiveParts

/-- The values of a directive, one of each kind; reports the first one that is missing. -/
def values (d : Directive) : List ValueKind → DirectiveParts → Grammar DirectiveParts
  | [], p => return p
  | kind :: kinds, p => do
    let blank ← takeTrivia false
    let place ← here
    let tokens ← valueTokens kind
    if tokens.isEmpty && kind != .optionalString then
      report (.directiveWithoutValue d.name) (← here)
      return (p.add (← codePiece blank)).broken
    let p := if tokens.isEmpty then p else p.addValue (valueOf kind tokens place)
    values d kinds (p.add (← codePiece (blank ++ tokens)))

/-- Takes the word `static` and the white space behind it. -/
def staticWord (isStatic : Bool) : Grammar (List Token) := do
  if isStatic then return (← bump) ++ (← takeTrivia false) else return []

/-- Adds the code of an import and its value: the tokens `given`, which start at a place. -/
def addImport (p : DirectiveParts) (isStatic : Bool) (place : Span)
    (given literal target : List Token) (shortName : Option Text) : Grammar DirectiveParts := do
  let code := Tree.spanning .statementCode (literal.map Tree.token) (← here)
    (some (.addImport (contentOf target) isStatic shortName))
  return (p.addValue (valueOf .namespaceName given place)).add [code]

/-- What `@using` brings in: a namespace, the members of a type, or a name for a type. -/
def importValue (p : DirectiveParts) : Grammar DirectiveParts := do
  let blank ← takeTrivia false
  let place ← here
  let isStatic := (← peek?).any (·.isWord "static")
  let lead ← staticWord isStatic
  let first ← typeName
  if first.isEmpty then
    report (.directiveWithoutValue Directive.importNamespace.name) (← here)
    return p.add (← codePiece (blank ++ lead))
  let n ← placeBehind isBlank 0
  if !isStatic && (← kindAt? n) == some .assign then
    let sign ← take (n + 1)
    let gap ← takeTrivia false
    let target ← typeName
    if target.isEmpty then
      report (.directiveWithoutValue Directive.importNamespace.name) (← here)
      addImport p isStatic place (lead ++ first) (blank ++ lead ++ first ++ sign ++ gap) first none
    else
      let given := lead ++ first ++ sign ++ gap ++ target
      addImport p isStatic place given (blank ++ given) target (some (contentOf first))
  else addImport p isStatic place (lead ++ first) (blank ++ lead ++ first) first none

/-! ## Texts for tag helpers -/

/-- A text without the double quotes around it, if there is one at either end. -/
def unquote (t : Text) : Text :=
  ((Text.after? ['"'] t).bind (Text.before? ['"'])).getD t

/-- Reads `pattern, assembly`, perhaps in quotes; neither part may be empty. -/
def lookupText (t : Text) (span : Span) : LookupText :=
  let given := Text.trim (unquote (Text.trim t))
  let target :=
    ((Text.splitFirst? (· == ',') given).map fun (p, a) => (Text.trim p, Text.trim a)).filter
      fun (p, a) => !p.isEmpty && !a.isEmpty
  let malformed := target.isNone && !given.isEmpty
  ⟨given, target, if malformed then [⟨.invalidLookupText given, span⟩] else []⟩

/-- A character that the prefix of tag helpers must not have. -/
def isInvalidInTagPrefix (c : Char) : Bool :=
  Text.isSpace c || ("!<>/?[]=\"'*@" : Text).contains c

/-- The label of a directive for tag helpers. -/
def tagHelperLabel (d : Directive) (text : Text) (span : Span) : Label :=
  match d with
  | .addTagHelper => .addTagHelper (lookupText text span)
  | .removeTagHelper => .removeTagHelper (lookupText text span)
  | _ =>
    let value := unquote text
    .tagPrefix value
      ((value.find? isInvalidInTagPrefix).toList.map fun c => ⟨.invalidTagPrefix value c, span⟩)

/-- The rest of the line of a directive for tag helpers. -/
def tagHelperLine (d : Directive) (p : DirectiveParts) : Grammar DirectiveParts := do
  let blank ← takeTrivia false
  let place ← here
  let tokens ← lineRest
  let text := Text.trimEnd (contentOf tokens)
  let behind ← here
  let span := if text.isEmpty then behind else { place with length := Text.size text }
  if text.isEmpty then report (.directiveWithoutValue d.name) span
  let p := if text.isEmpty then p else p.addValue ⟨.text, text, span⟩
  let code := Tree.spanning .statementCode ((blank ++ tokens).map Tree.token) behind
    (some (tagHelperLabel d text span))
  return p.add [code]

/-! ## Blocks -/

/-- The opening brace of a directive's block. -/
def openBlock (d : Directive) (p : DirectiveParts) : Grammar DirectiveParts := do
  let blank ← takeTrivia true
  if ← isAt .openBrace then
    return p.add [← nodeOver .metaCode (blank ++ (← bump))]
  report (.directiveWithoutValue d.name) (← here)
  return (p.add (← codePiece blank)).broken

/-- The block of members of a directive. -/
def memberBlock (c : Surroundings) (d : Directive) (p : DirectiveParts) : Grammar DirectiveParts := do
  let p ← openBlock d p
  if !p.complete then return p
  let code ← codeBlockNode c
  let closed ← closeBraceNode
  let p := p.add (code :: closed)
  return if closed.isEmpty then p.broken else p

/-- The block of markup of a directive. -/
def markupBlock (c : Surroundings) (d : Directive) (p : DirectiveParts) : Grammar DirectiveParts := do
  let p ← openBlock d p
  if !p.complete then return p
  let place ← here
  switchTo .html
  let block := Tree.spanning .markupBlock (← c.markup .section) place
  let closed ← closeBraceNode
  let p := p.add (block :: closed)
  if closed.isEmpty then
    report (.missingClose d.name '\x7b' '\x7d') (← here)
    return p.broken
  return p

/-! ## The whole directive -/

/-- The number of tokens up to the end of a directive's line: white space, perhaps a semicolon, and the
    line break; none if there is anything else on the line. -/
def lineEndCount? (semicolon : Bool) : Grammar (Option Nat) := do
  let n ← placeBehind isBlank 0
  let n ← if semicolon && (← kindAt? n) == some .semicolon then placeBehind isBlank (n + 1) else pure n
  match ← kindAt? n with
  | some .newLine => return some (n + 1)
  | some _ => return none
  | none => return some n

/-- The end of a directive's line, unless there is anything else on it. -/
def lineEnd (semicolon : Bool) (p : DirectiveParts) : Grammar DirectiveParts := do
  switchTo .csharp
  match ← lineEndCount? semicolon with
  | some count =>
    let tokens ← take count
    if tokens.isEmpty then return p else return p.add [← nodeOver .metaCode tokens]
  | none => return p

/-- What follows the name of a directive. -/
def directiveParts (c : Surroundings) (d : Directive) (p : DirectiveParts) :
    Grammar DirectiveParts := do
  if d = .importNamespace then lineEnd true (← importValue p)
  else
    match d.shape with
    | .values kinds =>
      let p ← values d kinds p
      if p.complete then lineEnd true p else return p
    | .restOfLine => lineEnd false (← tagHelperLine d p)
    | .codeBlock =>
      let p ← memberBlock c d p
      if p.complete then lineEnd false p else return p
    | .markupBlock kinds =>
      let p ← values d kinds p
      if !p.complete then return p
      let p ← markupBlock c d p
      if p.complete then lineEnd false p else return p

/-- The directive whose name is next. -/
def directive (c : Surroundings) (transition : Tree) (d : Directive) : Grammar Tree := do
  let start := transition.span
  let name ← nodeOver .metaCode (← bump)
  let p ← directiveParts c d { trees := [name] }
  let body := Tree.spanning .directiveBody p.trees start
  return Tree.spanning .directive [transition, body] start (some (.directive ⟨d, p.values⟩))

end RazorLang.Grammar
