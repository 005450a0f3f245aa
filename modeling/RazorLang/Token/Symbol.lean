import RazorLang.Text.Basic

/-!
# Symbols of C#

Operators and punctuation. The symbol at the front of a text is the longest one whose spelling the text
starts with. Two `>` are never joined: what closes two lists of type arguments looks the same as a shift.
-/

namespace RazorLang

/-- Operators and punctuation of C#, longer spellings first. -/
inductive Symbol where
  | questionQuestionEquals
  | lessThanLessThanEquals
  | dotDot
  | colonColon
  | questionQuestion
  | equalsEquals
  | equalsGreaterThan
  | exclamationEquals
  | lessThanLessThan
  | lessThanEquals
  | greaterThanEquals
  | plusPlus
  | plusEquals
  | minusMinus
  | minusEquals
  | minusGreaterThan
  | asteriskEquals
  | slashEquals
  | percentEquals
  | ampersandAmpersand
  | ampersandEquals
  | barBar
  | barEquals
  | caretEquals
  | openBrace
  | closeBrace
  | openParen
  | closeParen
  | openBracket
  | closeBracket
  | semicolon
  | comma
  | dot
  | colon
  | question
  | equals
  | exclamation
  | lessThan
  | greaterThan
  | plus
  | minus
  | asterisk
  | slash
  | percent
  | ampersand
  | bar
  | caret
  | tilde
  | hash
  | dollar
  | backslash
  | atSign
  deriving DecidableEq, Repr

namespace Symbol

/-- All symbols, longer spellings first. -/
def all : List Symbol := [
  questionQuestionEquals, lessThanLessThanEquals, dotDot, colonColon, questionQuestion,
  equalsEquals, equalsGreaterThan, exclamationEquals, lessThanLessThan, lessThanEquals,
  greaterThanEquals, plusPlus, plusEquals, minusMinus, minusEquals, minusGreaterThan,
  asteriskEquals, slashEquals, percentEquals, ampersandAmpersand, ampersandEquals, barBar,
  barEquals, caretEquals, openBrace, closeBrace, openParen, closeParen, openBracket, closeBracket,
  semicolon, comma, dot, colon, question, equals, exclamation, lessThan, greaterThan, plus, minus,
  asterisk, slash, percent, ampersand, bar, caret, tilde, hash, dollar, backslash, atSign]

/-- How a symbol is written. -/
def spelling : Symbol → Text
  | questionQuestionEquals => "??="
  | lessThanLessThanEquals => "<<="
  | dotDot => ".."
  | colonColon => "::"
  | questionQuestion => "??"
  | equalsEquals => "=="
  | equalsGreaterThan => "=>"
  | exclamationEquals => "!="
  | lessThanLessThan => "<<"
  | lessThanEquals => "<="
  | greaterThanEquals => ">="
  | plusPlus => "++"
  | plusEquals => "+="
  | minusMinus => "--"
  | minusEquals => "-="
  | minusGreaterThan => "->"
  | asteriskEquals => "*="
  | slashEquals => "/="
  | percentEquals => "%="
  | ampersandAmpersand => "&&"
  | ampersandEquals => "&="
  | barBar => "||"
  | barEquals => "|="
  | caretEquals => "^="
  | openBrace => "\x7b"
  | closeBrace => "\x7d"
  | openParen => "("
  | closeParen => ")"
  | openBracket => "["
  | closeBracket => "]"
  | semicolon => ";"
  | comma => ","
  | dot => "."
  | colon => ":"
  | question => "?"
  | equals => "="
  | exclamation => "!"
  | lessThan => "<"
  | greaterThan => ">"
  | plus => "+"
  | minus => "-"
  | asterisk => "*"
  | slash => "/"
  | percent => "%"
  | ampersand => "&"
  | bar => "|"
  | caret => "^"
  | tilde => "~"
  | hash => "#"
  | dollar => "$"
  | backslash => "\\"
  | atSign => "@"

/-- What a symbol is called. -/
def name : Symbol → Text
  | questionQuestionEquals => "QuestionQuestionEquals"
  | lessThanLessThanEquals => "LessThanLessThanEquals"
  | dotDot => "DotDot"
  | colonColon => "ColonColon"
  | questionQuestion => "QuestionQuestion"
  | equalsEquals => "EqualsEquals"
  | equalsGreaterThan => "EqualsGreaterThan"
  | exclamationEquals => "ExclamationEquals"
  | lessThanLessThan => "LessThanLessThan"
  | lessThanEquals => "LessThanEquals"
  | greaterThanEquals => "GreaterThanEquals"
  | plusPlus => "PlusPlus"
  | plusEquals => "PlusEquals"
  | minusMinus => "MinusMinus"
  | minusEquals => "MinusEquals"
  | minusGreaterThan => "MinusGreaterThan"
  | asteriskEquals => "AsteriskEquals"
  | slashEquals => "SlashEquals"
  | percentEquals => "PercentEquals"
  | ampersandAmpersand => "AmpersandAmpersand"
  | ampersandEquals => "AmpersandEquals"
  | barBar => "BarBar"
  | barEquals => "BarEquals"
  | caretEquals => "CaretEquals"
  | openBrace => "OpenBrace"
  | closeBrace => "CloseBrace"
  | openParen => "OpenParen"
  | closeParen => "CloseParen"
  | openBracket => "OpenBracket"
  | closeBracket => "CloseBracket"
  | semicolon => "Semicolon"
  | comma => "Comma"
  | dot => "Dot"
  | colon => "Colon"
  | question => "Question"
  | equals => "Equals"
  | exclamation => "Exclamation"
  | lessThan => "LessThan"
  | greaterThan => "GreaterThan"
  | plus => "Plus"
  | minus => "Minus"
  | asterisk => "Asterisk"
  | slash => "Slash"
  | percent => "Percent"
  | ampersand => "Ampersand"
  | bar => "Bar"
  | caret => "Caret"
  | tilde => "Tilde"
  | hash => "Hash"
  | dollar => "Dollar"
  | backslash => "Backslash"
  | atSign => "At"

/-- The longest symbol that a text starts with. -/
def lead? (t : Text) : Option Symbol := all.find? fun s => s.spelling.isPrefixOf t

end Symbol

end RazorLang
