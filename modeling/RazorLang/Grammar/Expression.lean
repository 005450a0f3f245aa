import RazorLang.Grammar.Reader

/-!
# Expressions in markup

`@name.member(args)[index]?.more` is an implicit expression, which ends where C# goes on in a way that it
does not know; `@( … )` is an explicit one, which ends with its parenthesis.
-/

namespace RazorLang.Grammar

/-- A name or keyword is `n` tokens ahead. -/
def memberAt (n : Nat) : Grammar Bool := do
  match ← kindAt? n with
  | some .identifier | some .keyword => return true
  | _ => return false

/-- One step along an implicit expression: arguments, an index, or a member. -/
def implicitTurn (start : Span) (tokens : List Token) : Grammar (Turn (List Token)) := do
  match ← kind? with
  | some .openParen =>
    let (taken, closed) ← takeBalanced .openParen .closeParen
    if closed then return .again (tokens ++ taken)
    report (.missingClose "implicit expression" '(' ')') start
    return .done (tokens ++ taken)
  | some .openBracket =>
    let (taken, closed) ← takeBalanced .openBracket .closeBracket
    if closed then return .again (tokens ++ taken)
    report (.missingClose "implicit expression" '[' ']') start
    return .done (tokens ++ taken)
  | some .dot =>
    if ← memberAt 1 then return .again (tokens ++ (← take 2)) else return .done tokens
  | some .questionMark =>
    match ← kindAt? 1 with
    | some .dot =>
      if ← memberAt 2 then return .again (tokens ++ (← take 3)) else return .done tokens
    | some .openBracket =>
      let mark ← bump
      let (taken, closed) ← takeBalanced .openBracket .closeBracket
      if closed then return .again (tokens ++ mark ++ taken)
      return .done (tokens ++ mark ++ taken)
    | _ => return .done tokens
  | some .not =>
    match ← kindAt? 1 with
    | some .dot | some .openBracket => return .again (tokens ++ (← bump))
    | _ => return .done tokens
  | _ => return .done tokens

/-- The word `await`, white space and a name are ahead. -/
def awaitAhead : Grammar Bool := do
  match ← peek? with
  | some t =>
    if t.kind == .identifier && t.content == "await".toList && (← kindAt? 1) == some .whitespace then
      memberAt 2
    else return false
  | none => return false

/-- Takes the word `await` and the white space behind it, if a name follows. -/
def awaitWord : Grammar (List Token) := do
  if ← awaitAhead then take 2 else return []

/-- The expression whose first name is next. -/
def implicitExpression (transition : Tree) : Grammar Tree := do
  let start := transition.span
  let lead ← awaitWord
  let first ← bump
  let tokens ← loop (implicitTurn start) (lead ++ first)
  let code ← nodeOver .expressionCode tokens
  return Tree.spanning .implicitExpression [transition, code] start

/-- One token of an explicit expression: the tokens so far, the parentheses open, and what closes
    the expression. -/
def explicitTurn :
    List Token × Nat × List Token → Grammar (Turn (List Token × Nat × List Token))
  | (tokens, depth, _) => do
    match ← kind? with
    | none => return .done (tokens, depth, [])
    | some .closeParen =>
      if depth = 0 then return .done (tokens, depth, ← bump)
      else return .again (tokens ++ (← bump), depth - 1, [])
    | some .openParen => return .again (tokens ++ (← bump), depth + 1, [])
    | some _ => return .again (tokens ++ (← bump), depth, [])

/-- The expression whose opening parenthesis is next. -/
def explicitExpression (transition : Tree) : Grammar Tree := do
  let start := transition.span
  let opened ← nodeOver .metaCode (← bump)
  let (tokens, _, closing) ← loop explicitTurn ([], 0, [])
  let code ← nodeOver .expressionCode tokens
  if closing.isEmpty then
    report (.missingClose "explicit expression" '(' ')') start
    return Tree.spanning .explicitExpression [transition, opened, code] start
  let closed ← nodeOver .metaCode closing
  return Tree.spanning .explicitExpression [transition, opened, code, closed] start

end RazorLang.Grammar
