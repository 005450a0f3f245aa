import RazorLang.Token.Mode

/-!
# Tokens of HTML

How the next token is cut off a text of markup. The characters that tags are made of are tokens of their
own, `--` is one token, and everything between is text.
-/

namespace RazorLang.Html

/-- The kind of a character that is a token by itself. -/
def single? : Char → Option TokenKind
  | '<' => some .openAngle
  | '>' => some .closeAngle
  | '/' => some .slash
  | '!' => some .bang
  | '?' => some .questionMark
  | '=' => some .equals
  | '"' => some .doubleQuote
  | '\'' => some .singleQuote
  | '[' => some .openBracket
  | ']' => some .closeBracket
  | _ => none

/-- A character that ends a run of text. -/
def endsText (c : Char) : Bool := c == '@' || (single? c).isSome || Text.isSpace c

/-- The number of characters up to the end of a run of text; `--` ends it too. -/
def textTail : Text → Nat
  | [] => 0
  | '-' :: '-' :: _ => 0
  | c :: t => if endsText c then 0 else textTail t + 1

/-- The next token of a text, given its first character and the rest. -/
def cut (c : Char) (rest : Text) : Cut :=
  if Text.isLineBreak c then Cut.lineBreak c rest
  else if Text.isSpace c then Cut.inlineSpace rest
  else if c == '@' then Cut.transition rest
  else
    match single? c, c, rest with
    | some kind, _, _ => { kind }
    | none, '-', '-' :: _ => { kind := .doubleHyphen, more := 1 }
    | none, _, _ => { kind := .text, more := textTail rest }

end RazorLang.Html
