import RazorLang.Diagnostic
import RazorLang.Text.Quoted

/-!
# Tokens

A token is a piece of a source with a kind. Tokens of both languages share one type. A token that breaks
off before it is complete carries a `Flaw`, which is reported at the token's start.
-/

namespace RazorLang

/-- The kinds of tokens, those of both languages and of Razor itself. -/
inductive TokenKind where
  | whitespace
  | newLine
  | transition
  | commentTransition
  | commentStar
  | commentBody
  | identifier
  | keyword
  | integer
  | real
  | character
  | string
  | comment
  | openBrace
  | closeBrace
  | openParen
  | closeParen
  | semicolon
  | comma
  | dot
  | colon
  | doubleColon
  | assign
  | doubleEqual
  | notEqual
  | not
  | lessThan
  | lessThanEqual
  | greaterThan
  | greaterThanEqual
  | arrow
  | otherOperator
  | unknown
  | text
  | openAngle
  | closeAngle
  | slash
  | bang
  | equals
  | doubleQuote
  | singleQuote
  | doubleHyphen
  | questionMark
  | openBracket
  | closeBracket
  deriving DecidableEq, Repr, Inhabited

namespace TokenKind

/-- What a kind is called in a listing of tokens. -/
def name : TokenKind → Text
  | whitespace => "Whitespace"
  | newLine => "NewLine"
  | transition => "Transition"
  | commentTransition => "RazorCommentTransition"
  | commentStar => "RazorCommentStar"
  | commentBody => "RazorCommentLiteral"
  | identifier => "Identifier"
  | keyword => "Keyword"
  | integer => "IntegerLiteral"
  | real => "RealLiteral"
  | character => "CharacterLiteral"
  | string => "StringLiteral"
  | comment => "CSharpComment"
  | openBrace => "LeftBrace"
  | closeBrace => "RightBrace"
  | openParen => "LeftParenthesis"
  | closeParen => "RightParenthesis"
  | semicolon => "Semicolon"
  | comma => "Comma"
  | dot => "Dot"
  | colon => "Colon"
  | doubleColon => "DoubleColon"
  | assign => "Assign"
  | doubleEqual => "DoubleEqual"
  | notEqual => "NotEqual"
  | not => "Not"
  | lessThan => "LessThan"
  | lessThanEqual => "LessThanEqual"
  | greaterThan => "GreaterThan"
  | greaterThanEqual => "GreaterThanEqual"
  | arrow => "Arrow"
  | otherOperator => "CSharpOperator"
  | unknown => "Unknown"
  | text => "Text"
  | openAngle => "OpenAngle"
  | closeAngle => "CloseAngle"
  | slash => "ForwardSlash"
  | bang => "Bang"
  | equals => "Equals"
  | doubleQuote => "DoubleQuote"
  | singleQuote => "SingleQuote"
  | doubleHyphen => "DoubleHyphen"
  | questionMark => "QuestionMark"
  | openBracket => "LeftBracket"
  | closeBracket => "RightBracket"

/-- White space and line breaks. -/
def isTrivia : TokenKind → Bool
  | whitespace | newLine => true
  | _ => false

/-- The parts of a Razor comment. -/
def isRazorComment : TokenKind → Bool
  | commentTransition | commentStar | commentBody => true
  | _ => false

end TokenKind

/-- How a token can break off. -/
inductive Flaw where
  | string
  | verbatimString
  | character
  | blockComment
  | razorComment
  deriving DecidableEq, Repr

namespace Flaw

/-- The rule that a broken token breaks. -/
def cause : Flaw → Cause
  | string | verbatimString => .unterminatedString
  | character => .unterminatedCharacter
  | blockComment => .unterminatedBlockComment
  | razorComment => .unterminatedRazorComment

/-- The bytes that are marked at the token's start. -/
def marked : Flaw → Nat
  | string | character => 1
  | verbatimString | blockComment => 2
  | razorComment => 0

end Flaw

/-- A piece of a source. -/
structure Token where
  kind : TokenKind
  content : Text
  span : Span
  flaw : Option Flaw := none
  deriving DecidableEq, Repr, Inhabited

namespace Token

/-- The token is the given keyword. -/
def isWord (t : Token) (word : Text) : Bool := t.kind == .keyword && t.content == word

/-- White space and line breaks. -/
def isTrivia (t : Token) : Bool := t.kind.isTrivia

/-- The report of a token's flaw. -/
def diagnostics (t : Token) : List Diagnostic :=
  t.flaw.toList.map fun f => ⟨f.cause, t.span.path, t.span.start, f.marked⟩

/-- The two tokens that a token makes when it is cut at a byte offset inside it; the flaw stays with
    the first. -/
def splitAt? (t : Token) (offset : Nat) : Option (Token × Token) :=
  match Text.splitAtByte? offset t.content with
  | some (head@(_ :: _), tail@(_ :: _)) =>
    some
      ({ t with content := head, span := ⟨t.span.path, t.span.start, Text.size head⟩ },
        { kind := t.kind, content := tail,
          span := ⟨t.span.path, t.span.start.advance head, Text.size tail⟩ })
  | _ => none

/-- The line of a listing: kind, quoted content and place. -/
def render (t : Token) : Text :=
  t.kind.name ++ " " ++ Text.quoted t.content ++ " " ++ t.span.start.render

end Token

/-- The text that a list of tokens covers. -/
def contentOf (tokens : List Token) : Text := tokens.flatMap (·.content)

end RazorLang
