import RazorLang.Text.Basic

/-!
# Keywords of C#
-/

namespace RazorLang.Keyword

/-- The reserved words. -/
def reserved : List Text := List.map String.toList [
  "abstract", "as", "base", "bool", "break", "byte", "case", "catch", "char", "checked", "class",
  "const", "continue", "decimal", "default", "delegate", "do", "double", "else", "enum", "event",
  "explicit", "extern", "false", "finally", "fixed", "float", "for", "foreach", "goto", "if",
  "implicit", "in", "int", "interface", "internal", "is", "lock", "long", "namespace", "new",
  "null", "object", "operator", "out", "override", "params", "private", "protected", "public",
  "readonly", "ref", "return", "sbyte", "sealed", "short", "sizeof", "stackalloc", "static",
  "string", "struct", "switch", "this", "throw", "true", "try", "typeof", "uint", "ulong",
  "unchecked", "unsafe", "ushort", "using", "virtual", "void", "volatile", "while"]

/-- A reserved word. -/
def isReserved (t : Text) : Bool := reserved.contains t

/-- The words that a statement after a transition starts with. -/
def statementWords : List Text :=
  ["if", "for", "foreach", "while", "switch", "lock", "using", "try", "do"]

/-- A word that starts a statement after a transition. -/
def startsStatement (t : Text) : Bool := statementWords.contains t

end RazorLang.Keyword
