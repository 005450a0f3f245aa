import RazorLang.Grammar.Expression

/-!
# Statements

Blocks of statements, with markup between them, and the statements that a keyword after a transition
starts. Markup is read by a rule that is handed in, so that this grammar does not depend on the one of
markup, which in turn depends on it.
-/

namespace RazorLang

/-- Where a run of markup ends. -/
inductive MarkupScope where
  /-- With the document. -/
  | document
  /-- Behind the next line break. -/
  | line
  /-- Behind one element and the rest of its line. -/
  | element
  /-- Before the brace that closes the body of a section. -/
  | section
  deriving DecidableEq, Repr

/-- What the grammar of code needs to know: the kind of the file, and how markup is read. -/
structure Surroundings where
  fileKind : FileKind
  markup : MarkupScope → Grammar (List Tree)

namespace Grammar

/-- Takes the next token into a run of code. -/
def takeInto (run : CodeRun) : Grammar CodeRun := do
  return run.add (← bump)

/-- Markup follows the `<` that is `n - 1` tokens ahead: a name, `/` or `!` comes right behind it. -/
def markupFollows (n : Nat) : Grammar Bool := do
  match ← peekNth? n with
  | some t =>
    match t.kind with
    | .identifier | .keyword | .not => return true
    | .otherOperator => return t.content == ['/']
    | _ => return false
  | none => return false

/-- The node of the transition that led to an element, if there is one. -/
def transitionNode (transition : List Token) : Grammar (List Tree) := do
  if transition.isEmpty then return [] else return [← nodeOver .metaCode transition]

/-- One element of markup and the rest of its line, behind the transition that led to it. -/
def elementInCode (c : Surroundings) (transition : List Token) : Grammar Tree := do
  let place ← here
  let lead ← transitionNode transition
  switchTo .html
  return Tree.spanning .markupBlock (lead ++ (← c.markup .element)) place

/-- The rest of a line as markup, behind `@:`. -/
def lineInCode (c : Surroundings) : Grammar Tree := do
  let place ← here
  let lead ← nodeOver .metaCode (← take 2)
  switchTo .html
  return Tree.spanning .markupBlock (lead :: (← c.markup .line)) place

/-- How far a block of statements has been read. -/
structure BlockState where
  run : CodeRun
  /-- Braces open inside the block. -/
  depth : Nat := 0
  /-- A statement may start here, so that `<` may be markup. -/
  fresh : Bool := true

/-- One step along a block of statements. -/
def blockTurn (c : Surroundings) (b : BlockState) : Grammar (Turn BlockState) := do
  switchTo .csharp
  let plain : Grammar (Turn BlockState) := do
    return .again { b with run := ← takeInto b.run, fresh := false }
  match ← kind? with
  | none => return .done b
  | some .closeBrace =>
    if b.depth = 0 then return .done b
    return .again ⟨← takeInto b.run, b.depth - 1, true⟩
  | some .openBrace => return .again ⟨← takeInto b.run, b.depth + 1, true⟩
  | some .semicolon | some .colon => return .again ⟨← takeInto b.run, b.depth, true⟩
  | some .whitespace | some .newLine | some .comment =>
    return .again { b with run := ← takeInto b.run }
  | some .commentTransition =>
    return .again { b with run := b.run.push (← razorComment) }
  | some .lessThan =>
    if b.fresh && (← markupFollows 1) then
      return .again { b with run := b.run.push (← elementInCode c []), fresh := true }
    plain
  | some .transition =>
    match ← kindAt? 1 with
    | some .colon => return .again { b with run := b.run.push (← lineInCode c), fresh := true }
    | some .lessThan =>
      if ← markupFollows 2 then
        return .again { b with run := b.run.push (← elementInCode c (← bump)) }
      plain
    | _ => plain
  | some _ => plain

/-- The statements of a block up to the brace that closes it, which is left unread. -/
def blockStatements (c : Surroundings) (run : CodeRun) : Grammar CodeRun := do
  let b ← loop (blockTurn c) { run }
  if (← peek?).isNone then report (.missingClose "code" '\x7b' '\x7d') (← here)
  return b.run

/-- The closing brace, if it is next, as a node. -/
def closeBraceNode : Grammar (List Tree) := do
  switchTo .csharp
  if ← isAt .closeBrace then return [← nodeOver .metaCode (← bump)] else return []

/-- The statements of a block as a node. -/
def codeBlockNode (c : Surroundings) : Grammar Tree := do
  let run ← blockStatements c {}
  return Tree.spanning .codeBlock run.finish (← here)

/-- `@{ … }`, with its opening brace next. -/
def statementBlock (c : Surroundings) (transition : Tree) : Grammar Tree := do
  let start := transition.span
  let opened ← nodeOver .metaCode (← bump)
  let code ← codeBlockNode c
  let closed ← closeBraceNode
  let body := Tree.spanning .statementBody ([opened, code] ++ closed) start
  return Tree.spanning .statement [transition, body] start

/-! ## Statements that a keyword starts -/

/-- Takes white space and line breaks into a run of code. -/
def takeTriviaInto (run : CodeRun) (acrossLines : Bool) : Grammar CodeRun := do
  return run.add (← takeTrivia acrossLines)

/-- The condition of a statement in its parentheses, if there is one. -/
def condition (run : CodeRun) : Grammar CodeRun := do
  let run ← takeTriviaInto run true
  if ← isAt .openParen then
    let (tokens, closed) ← takeBalanced .openParen .closeParen
    if !closed then report (.missingClose "condition" '(' ')') (← here)
    return run.add tokens
  return run

/-- One token of a body without braces, which ends with a semicolon outside of all brackets. -/
def plainBodyTurn : CodeRun × Nat → Grammar (Turn (CodeRun × Nat))
  | (run, depth) => do
    match ← kind? with
    | none => return .done (run, depth)
    | some kind =>
      let depth :=
        match kind with
        | .openParen | .openBrace => depth + 1
        | .closeParen | .closeBrace => depth - 1
        | _ => depth
      let run ← takeInto run
      if kind == .semicolon && depth == 0 then return .done (run, depth)
      return .again (run, depth)

/-- The body of a statement: a block in braces, or tokens up to a semicolon. -/
def body (c : Surroundings) (run : CodeRun) : Grammar CodeRun := do
  switchTo .csharp
  let run ← takeTriviaInto run true
  if ← isAt .openBrace then
    let run ← blockStatements c (← takeInto run)
    switchTo .csharp
    if ← isAt .closeBrace then takeInto run else return run
  else
    let (run, _) ← loop plainBodyTurn (run, 0)
    return run

/-- Takes a keyword that goes on with a statement, and what is before it, if the keyword is one of
    `words`; otherwise takes nothing. -/
def continuation (run : CodeRun) (words : List Text) : Grammar (CodeRun × Option Text) := do
  switchTo .csharp
  let n ← placeBehind (fun kind => kind.isTrivia || kind == .comment) 0
  match ← peekNth? n with
  | some t =>
    if t.kind == .keyword && words.contains t.content then
      return (run.add (← take (n + 1)), some t.content)
    return (run, none)
  | none => return (run, none)

/-- One `catch` or `finally` with its block. -/
def handlerTurn (c : Surroundings) (run : CodeRun) : Grammar (Turn CodeRun) := do
  match ← continuation run ["catch", "finally"] with
  | (run, none) => return .done run
  | (run, some word) =>
    if word == "finally".toList then return .done (← body c run)
    return .again (← body c (← condition run))

/-- One `else` or `else if` with its block. -/
def alternativeTurn (c : Surroundings) (run : CodeRun) : Grammar (Turn CodeRun) := do
  match ← continuation run ["else"] with
  | (run, none) => return .done run
  | (run, some _) =>
    let n ← placeBehind (·.isTrivia) 0
    if (← peekNth? n).any (·.isWord "if") then
      let run ← takeInto (← takeTriviaInto run true)
      return .again (← body c (← condition run))
    return .done (← body c run)

/-- The statement whose keyword is next, with everything that belongs to it. -/
def keywordStatement (c : Surroundings) (transition : Tree) : Grammar Tree := do
  let word := ((← peek?).map (·.content)).getD []
  let run ← takeInto { trees := [transition] }
  let run ←
    if word == "do".toList then
      match ← continuation (← body c run) ["while"] with
      | (run, none) => pure run
      | (run, some _) =>
        let run ← takeTriviaInto (← condition run) false
        if ← isAt .semicolon then takeInto run else pure run
    else if word == "try".toList then loop (handlerTurn c) (← body c run)
    else
      let run ← body c (← condition run)
      if word == "if".toList then loop (alternativeTurn c) run else pure run
  return Tree.spanning .codeBlock run.finish transition.span

end Grammar

end RazorLang
