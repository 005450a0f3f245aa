import RazorLang.Token.Keyword
import RazorLang.Token.Lexeme
import RazorLang.Token.Mode

/-!
# Tokens of C#

How the next token is cut off a text of C#: trivia, comments, the three kinds of literals in quotes and
the transitions of Razor are recognised here, everything else is a lexeme.

A quoted literal ends with its line, a verbatim string and a block comment only with the text; each of
them carries a flaw if its end is not found.
-/

namespace RazorLang.CSharp

/-- The characters of a quoted literal behind its opening quote, and whether it is closed; a
    backslash takes the next character of the line with it. -/
def quotedTail (quote : Char) : Text → Nat × Bool
  | [] => (0, false)
  | [c] => if c == quote then (1, true) else if Text.isLineBreak c then (0, false) else (1, false)
  | c :: d :: t =>
    if c == '\\' then
      if Text.isLineBreak d then (1, false)
      else
        let (n, closed) := quotedTail quote t
        (n + 2, closed)
    else if c == quote then (1, true)
    else if Text.isLineBreak c then (0, false)
    else
      let (n, closed) := quotedTail quote (d :: t)
      (n + 1, closed)

/-- The characters of a verbatim string behind its opening quote, and whether it is closed; two
    quotes stand for one. -/
def verbatimTail : Text → Nat × Bool
  | [] => (0, false)
  | '"' :: '"' :: t =>
    let (n, closed) := verbatimTail t
    (n + 2, closed)
  | '"' :: _ => (1, true)
  | _ :: t =>
    let (n, closed) := verbatimTail t
    (n + 1, closed)

/-- A literal in quotes behind the `lead` characters that open it. -/
def quoted (quote : Char) (kind : TokenKind) (flaw : Flaw) (lead : Nat) (t : Text) : Cut :=
  let (n, closed) := quotedTail quote (t.drop lead)
  Cut.ofCount kind (lead + n) (if closed then none else some flaw)

/-- A verbatim string behind the `lead` characters that open it. -/
def verbatim (lead : Nat) (t : Text) : Cut :=
  let (n, closed) := verbatimTail (t.drop lead)
  Cut.ofCount .string (lead + n) (if closed then none else some .verbatimString)

/-- A block comment, from its opening on. -/
def blockComment (t : Text) : Cut :=
  match Text.indexOf? "*/" (t.drop 2) with
  | some n => Cut.ofCount .comment (n + 4)
  | none => Cut.ofCount .comment t.length (some .blockComment)

/-- The kind of a symbol's token. -/
def symbolKind : Symbol → TokenKind
  | .openBrace => .openBrace
  | .closeBrace => .closeBrace
  | .openParen => .openParen
  | .closeParen => .closeParen
  | .openBracket => .openBracket
  | .closeBracket => .closeBracket
  | .semicolon => .semicolon
  | .comma => .comma
  | .dot => .dot
  | .colon => .colon
  | .colonColon => .doubleColon
  | .question => .questionMark
  | .equals => .assign
  | .equalsEquals => .doubleEqual
  | .equalsGreaterThan => .arrow
  | .exclamation => .not
  | .exclamationEquals => .notEqual
  | .lessThan => .lessThan
  | .lessThanEquals => .lessThanEqual
  | .greaterThan => .greaterThan
  | .greaterThanEquals => .greaterThanEqual
  | .backslash | .atSign => .unknown
  | _ => .otherOperator

/-- The kind of the token that a lexeme makes. -/
def lexemeKind (kind : LexemeKind) (content : Text) : TokenKind :=
  match kind with
  | .identifier => if Keyword.isReserved content then .keyword else .identifier
  | .integer => .integer
  | .real => .real
  | .symbol s => symbolKind s
  | .unknown => .unknown

/-- The token of the lexeme at the front of a text. -/
def lexeme (t : Text) : Cut :=
  match Lexeme.lead? t with
  | some l => Cut.ofCount (lexemeKind l.kind (t.take l.count)) l.count
  | none => Cut.ofCount .unknown 1

/-- The next token of a text, given its first character and the rest. -/
def cut (c : Char) (rest : Text) : Cut :=
  let t := c :: rest
  if Text.isLineBreak c then Cut.lineBreak c rest
  else if Text.isSpace c then Cut.inlineSpace rest
  else
    match c, rest with
    | '@', '"' :: _ => verbatim 2 t
    | '@', '$' :: '"' :: _ => verbatim 3 t
    | '@', _ => Cut.transition rest
    | '"', _ => quoted '"' .string .string 1 t
    | '\'', _ => quoted '\'' .character .character 1 t
    | '$', '"' :: _ => quoted '"' .string .string 2 t
    | '$', '@' :: '"' :: _ => verbatim 3 t
    | '/', '*' :: _ => blockComment t
    | '/', '/' :: _ => Cut.ofCount .comment (t.takeWhile (!Text.isLineBreak ·)).length
    | _, _ => lexeme t

end RazorLang.CSharp
