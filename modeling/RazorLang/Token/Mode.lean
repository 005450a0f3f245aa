import RazorLang.Token.Basic

/-!
# Languages, modes and cuts

A document mixes two languages, and both know the comments and transitions of Razor. A `Mode` is what a
tokenizer remembers between two tokens, which is only how far into such a comment or escape it is; a
`Cut` says how the next token is cut off the front of a text. A cut always takes the first character, so
it only counts the further ones.
-/

namespace RazorLang

/-- The languages that tokens are cut in. -/
inductive Language where
  | csharp
  | html
  deriving DecidableEq, Repr, Inhabited

namespace Language

/-- The name of a language. -/
def name : Language → Text
  | csharp => "csharp"
  | html => "html"

/-- The language with a name. -/
def ofName? (t : Text) : Option Language := [csharp, html].find? (·.name == t)

end Language

/-- What a tokenizer remembers between two tokens. -/
inductive Mode where
  /-- Nothing. -/
  | data
  /-- The transition of `@*` is behind, the star ahead. -/
  | commentOpened
  /-- The first transition of `@@` is behind, the second ahead. -/
  | escape
  /-- `@*` is behind, the body of the comment ahead. -/
  | commentBody
  /-- The body is behind, the star of `*@` ahead. -/
  | commentStar
  /-- The star of `*@` is behind, the transition ahead. -/
  | commentEnd
  deriving DecidableEq, Repr, Inhabited

namespace Mode

/-- The name of a mode in a listing of tokens. -/
def name : Mode → Text
  | data => "Data"
  | commentOpened => "AfterRazorCommentTransition"
  | escape => "EscapedRazorCommentTransition"
  | commentBody => "RazorCommentBody"
  | commentStar => "StarAfterRazorCommentBody"
  | commentEnd => "AtTokenAfterRazorCommentBody"

end Mode

/-- How the next token is cut off: its first character and `more` further ones. -/
structure Cut where
  kind : TokenKind
  more : Nat := 0
  flaw : Option Flaw := none
  /-- The mode behind the token. -/
  mode : Mode := .data
  deriving DecidableEq, Repr

namespace Cut

/-- The cut of a token of `count` characters, of which there is at least one. -/
def ofCount (kind : TokenKind) (count : Nat) (flaw : Option Flaw := none) : Cut :=
  { kind, more := count - 1, flaw }

/-- A cut of some characters takes as many. -/
theorem take_ofCount {c : Char} {rest : Text} {kind : TokenKind} {flaw : Option Flaw} {n : Nat} (h : 0 < n) :
    c :: rest.take (ofCount kind n flaw).more = (c :: rest).take n := by
  cases n with
  | zero => exact absurd h (Nat.lt_irrefl 0)
  | succ n => rfl

/-- The cut at a transition, which decides from the next character what it opens. -/
def transition (rest : Text) : Cut :=
  match rest with
  | '*' :: _ => { kind := .commentTransition, mode := .commentOpened }
  | '@' :: _ => { kind := .transition, mode := .escape }
  | _ => { kind := .transition }

/-- The cut at a line break. -/
def lineBreak (c : Char) (rest : Text) : Cut :=
  match c, rest with
  | '\r', '\n' :: _ => { kind := .newLine, more := 1 }
  | _, _ => { kind := .newLine }

/-- The cut at white space within a line. -/
def inlineSpace (rest : Text) : Cut :=
  { kind := .whitespace, more := (rest.takeWhile Text.isInlineSpace).length }

end Cut

end RazorLang
