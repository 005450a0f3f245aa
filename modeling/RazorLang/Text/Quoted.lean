import RazorLang.Text.Basic
import RazorLang.Text.Hidden

/-!
# Quoted text

How a text is shown inside a report: between double quotes, with every character that would not show
written as an escape.
-/

namespace RazorLang.Text

/-- A number in lower-case hexadecimal digits. -/
def hexadecimal (n : Nat) : Text := Nat.toDigits 16 n

/-- Characters that a quoted text writes by their code point. -/
def isHidden (c : Char) : Bool :=
  if c.toNat < 128 then c.toNat < 32 || c.toNat == 127 else inRanges hiddenRanges c.toNat

/-- One character of a quoted text. -/
def quotedChar (c : Char) : Text :=
  if c == '\x00' then "\\0"
  else if c == '\t' then "\\t"
  else if c == '\r' then "\\r"
  else if c == '\n' then "\\n"
  else if c == '"' || c == '\\' then ['\\', c]
  else if isHidden c then "\\u\x7b" ++ hexadecimal c.toNat ++ "\x7d"
  else [c]

/-- A text between double quotes, with escapes for the characters that would not show. -/
def quoted (t : Text) : Text := "\"" ++ t.flatMap quotedChar ++ "\""

end RazorLang.Text
