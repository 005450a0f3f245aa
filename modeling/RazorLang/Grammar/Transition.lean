import RazorLang.Grammar.Directive

/-!
# Transitions from markup to code

What comes right behind `@` decides what is read: a block, an expression in parentheses, a directive, a
statement, or an expression that starts with a name.
-/

namespace RazorLang.Grammar

/-- `@using` with a parenthesis behind it is the statement of that name. -/
def usingIsStatement : Grammar Bool := do
  return (← kindAt? (← placeBehind isBlank 1)) == some .openParen

/-- How the offender behind a stray transition is called in the report. -/
def strayName : Option Token → Text
  | none => "end of file"
  | some t => if t.isTrivia then "whitespace" else t.content

/-- A transition that nothing follows: an implicit expression without code. -/
def strayTransition (start : Span) (transition : Tree) : Grammar Tree := do
  report (.unexpectedAfterTransition (strayName (← peek?))) start
  let code ← nodeOver .expressionCode []
  return Tree.spanning .implicitExpression [transition, code] start

/-- The transition that is next, with the code it leads to. -/
def codeTransition (c : Surroundings) : Grammar Tree := do
  let start ← here
  let transition ← nodeOver .codeTransition (← bump)
  switchTo .csharp
  let inBlock (inner : Grammar Tree) : Grammar Tree := do
    return Tree.spanning .codeBlock [← inner] start
  let named (name : Text) : Grammar Tree :=
    match Directive.ofName? c.fileKind name with
    | some d => inBlock (directive c transition d)
    | none => inBlock (implicitExpression transition)
  match ← peek? with
  | some t =>
    match t.kind with
    | .openBrace => inBlock (statementBlock c transition)
    | .openParen => inBlock (explicitExpression transition)
    | .keyword =>
      if t.content == "using".toList then
        if ← usingIsStatement then keywordStatement c transition
        else inBlock (directive c transition .importNamespace)
      else if Keyword.startsStatement t.content then keywordStatement c transition
      else named t.content
    | .identifier => named t.content
    | _ => inBlock (strayTransition start transition)
  | none => inBlock (strayTransition start transition)

end RazorLang.Grammar
