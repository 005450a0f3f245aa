import RazorLang.Token.Symbol

/-!
# Lexemes of C#

The identifier, number, operator or punctuation at the front of a text, always the longest one. White
space, comments, strings and the transitions of Razor are not among them.
-/

namespace RazorLang

/-- The kinds of lexemes. -/
inductive LexemeKind where
  | identifier
  | integer
  | real
  | symbol (s : Symbol)
  | unknown
  deriving DecidableEq, Repr

/-- What a kind of lexeme is called. -/
def LexemeKind.name : LexemeKind → Text
  | identifier => "Identifier"
  | integer => "IntegerLiteral"
  | real => "RealLiteral"
  | symbol s => s.name
  | unknown => "Unknown"

/-- A lexeme at the front of a text: its kind and the number of its characters. -/
structure Lexeme where
  kind : LexemeKind
  count : Nat
  deriving DecidableEq, Repr

namespace Lexeme

/-- A character that an identifier starts with. -/
def startsIdentifier (c : Char) : Bool := c == '_' || Text.isLetter c

/-- A character that an identifier goes on with. -/
def continuesIdentifier (c : Char) : Bool := c == '_' || Text.isLetter c || Text.isNumber c

/-- The number of leading characters that satisfy `p`. -/
def countWhile (p : Char → Bool) (t : Text) : Nat := (t.takeWhile p).length

/-! ## Numbers -/

/-- Digits and the separator between them. -/
def isDigitOrSeparator (c : Char) : Bool := c.isDigit || c == '_'

/-- Hexadecimal digits and the separator between them. -/
def isHexOrSeparator (c : Char) : Bool :=
  c.isDigit || ('a' ≤ c && c ≤ 'f') || ('A' ≤ c && c ≤ 'F') || c == '_'

/-- Length of a fraction: a dot that a digit follows, and the digits. -/
def fractionLength : Text → Nat
  | '.' :: c :: t => if c.isDigit then 1 + countWhile isDigitOrSeparator (c :: t) else 0
  | _ => 0

/-- Length of the digits of an exponent that must start with a digit. -/
def exponentDigits : Text → Nat
  | c :: t => if c.isDigit then countWhile isDigitOrSeparator (c :: t) else 0
  | [] => 0

/-- Length of an exponent: its letter, perhaps a sign, and digits; nothing without digits. -/
def exponentLength : Text → Nat
  | c :: t =>
    if c == 'e' || c == 'E' then
      match t with
      | s :: u =>
        if s == '+' || s == '-' then
          if exponentDigits u = 0 then 0 else 2 + exponentDigits u
        else if exponentDigits t = 0 then 0 else 1 + exponentDigits t
      | [] => 0
    else 0
  | [] => 0

/-- A character of a text up to the case of ASCII letters. -/
def isEither (lower c : Char) : Bool := c.toLower == lower

/-- Length of the suffix of an integer, given the letter that may follow the first and the text behind
    the first. -/
def pairedSuffixLength (second : Char) : Text → Nat
  | d :: _ => if isEither second d then 2 else 1
  | [] => 1

/-- Length of the suffix of an integer: `u`, `l`, or both in either order. -/
def integerSuffixLength : Text → Nat
  | c :: t =>
    if isEither 'u' c then pairedSuffixLength 'l' t
    else if isEither 'l' c then pairedSuffixLength 'u' t
    else 0
  | [] => 0

/-- The suffixes that make a number real. -/
def isRealSuffix (c : Char) : Bool := isEither 'f' c || isEither 'd' c || isEither 'm' c

/-- A number that starts with `0x` or `0b`; the digits of either may be hexadecimal. -/
def radixNumber? : Text → Option Lexeme
  | '0' :: c :: t =>
    if isEither 'x' c || isEither 'b' c then
      let digits := countWhile isHexOrSeparator t
      some ⟨.integer, 2 + digits + integerSuffixLength (t.drop digits)⟩
    else none
  | _ => none

/-- A decimal number with fraction, exponent and suffix. -/
def decimalNumber (t : Text) : Lexeme :=
  let whole := countWhile isDigitOrSeparator t
  let fraction := fractionLength (t.drop whole)
  let exponent := exponentLength (t.drop (whole + fraction))
  let length := whole + fraction + exponent
  let isReal := fraction != 0 || exponent != 0
  match t.drop length with
  | c :: rest =>
    if isRealSuffix c then ⟨.real, length + 1⟩
    else ⟨if isReal then .real else .integer, length + integerSuffixLength (c :: rest)⟩
  | [] => ⟨if isReal then .real else .integer, length⟩

/-- The number at the front of a text that starts with one. -/
def number (t : Text) : Lexeme := (radixNumber? t).getD (decimalNumber t)

/-- A digit, or a dot that a digit follows. -/
def startsNumber : Text → Bool
  | '.' :: d :: _ => d.isDigit
  | c :: _ => c.isDigit
  | [] => false

/-! ## The lexeme at the front -/

/-- The longest lexeme at the front of a text; none of an empty text only. -/
def lead? (t : Text) : Option Lexeme :=
  match t with
  | [] => none
  | c :: _ =>
    if startsIdentifier c then some ⟨.identifier, countWhile continuesIdentifier t⟩
    else if startsNumber t then some (number t)
    else
      match Symbol.lead? t with
      | some s => some ⟨.symbol s, s.spelling.length⟩
      | none => some ⟨.unknown, 1⟩

end Lexeme

end RazorLang
