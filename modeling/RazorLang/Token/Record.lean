import RazorLang.Json.Basic
import RazorLang.Token.Tokenizer

/-!
# Tokens as JSON

The record of a token has its kind, what it spells, where it is, and what is wrong with it.
-/

namespace RazorLang

/-- The record of a span. -/
def Span.toJson (s : Span) : Json :=
  .object [
    ("file_path", Json.ofText? s.path),
    ("absolute_index", Json.ofNat s.start.offset),
    ("line_index", Json.ofNat s.start.line),
    ("character_index", Json.ofNat s.start.column),
    ("length", Json.ofNat s.length)]

/-- The name of a severity in a record. -/
def Severity.recordName : Severity → Text
  | .warning => "Warning"
  | .error => "Error"

/-- The record of a diagnostic. -/
def Diagnostic.toJson (d : Diagnostic) : Json :=
  .object [
    ("id", .string d.id),
    ("severity", .string d.severity.recordName),
    ("message", .string d.message),
    ("span", d.span.toJson)]

/-- The record of a token. -/
def Token.toJson (t : Token) : Json :=
  .object [
    ("kind", .string t.kind.name),
    ("content", .string t.content),
    ("span", t.span.toJson),
    ("diagnostics", .array (t.diagnostics.map Diagnostic.toJson))]

end RazorLang
