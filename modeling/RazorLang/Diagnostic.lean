import RazorLang.Source.Document

/-!
# Diagnostics

What is wrong with a document. A `Cause` says which rule the document breaks and with what; identifier,
severity and wording are functions of it, so two diagnostics are equal exactly if cause and span are.
-/

namespace RazorLang

/-- How bad a diagnostic is. -/
inductive Severity where
  | warning
  | error
  deriving DecidableEq, Repr

/-- The name of a severity in a report. -/
def Severity.render : Severity → Text
  | .warning => "warning"
  | .error => "error"

/-- The rules that a document can break. -/
inductive Cause where
  | unterminatedString
  | unterminatedCharacter
  | unterminatedBlockComment
  | unterminatedRazorComment
  | missingClose (block : Text) (opener closer : Char)
  | directiveWithoutValue (directive : Text)
  | invalidLookupText (given : Text)
  | invalidTagPrefix (given : Text) (offender : Char)
  | unclosedElement (tag : Text)
  | unexpectedEndTag (tag : Text)
  | unexpectedAfterTransition (found : Text)
  | lookupInComponent (directive : Text)
  | tagPrefixInComponent (directive : Text)
  deriving DecidableEq, Repr

namespace Cause

/-- The identifier of the rule. -/
def id : Cause → Text
  | unterminatedString | unterminatedCharacter => "RZ1000"
  | unterminatedBlockComment => "RZ1001"
  | unterminatedRazorComment => "RZ1002"
  | missingClose .. => "RZ1003"
  | directiveWithoutValue _ => "RZ1004"
  | invalidLookupText _ | invalidTagPrefix .. => "RZ1005"
  | unclosedElement _ => "RZ1006"
  | unexpectedEndTag _ => "RZ1007"
  | unexpectedAfterTransition _ => "RZ1008"
  | lookupInComponent _ | tagPrefixInComponent _ => "RZ2001"

/-- Elements that do not match are warnings, all else is an error. -/
def severity : Cause → Severity
  | unclosedElement _ | unexpectedEndTag _ => .warning
  | _ => .error

/-- The wording of a broken rule. -/
def message : Cause → Text
  | unterminatedString =>
    "Unterminated string literal. Strings that start with a quotation mark (\") must be terminated " ++
      "before the end of the line."
  | unterminatedCharacter =>
    "Unterminated character literal. Character literals that start with an apostrophe (') must be " ++
      "terminated."
  | unterminatedBlockComment =>
    "End of file was reached before the end of the block comment. All comments started with \"/*\" " ++
      "must be terminated with \"*/\"."
  | unterminatedRazorComment =>
    "End of file was reached before the end of the Razor comment. All comments started with \"@*\" " ++
      "must be terminated with \"*@\"."
  | missingClose block opener closer =>
    "The " ++ block ++ " block is missing a closing \"" ++ [closer] ++
      "\" character. Make sure you have a matching \"" ++ [closer] ++ "\" character for all the \"" ++
      [opener] ++ "\" characters within this block."
  | directiveWithoutValue directive => "The '" ++ directive ++ "' directive expects a value."
  | invalidLookupText given =>
    "Invalid tag helper directive look up text '" ++ given ++
      "'. The correct look up text format is: \"name, assemblyName\"."
  | invalidTagPrefix given offender =>
    "Invalid tag helper prefix '" ++ given ++ "'. The prefix cannot contain the character '" ++
      [offender] ++ "'."
  | unclosedElement tag =>
    "The \"" ++ tag ++ "\" element was not closed. All elements must be either self-closing or have " ++
      "a matching end tag."
  | unexpectedEndTag tag => "Encountered end tag \"" ++ tag ++ "\" with no matching start tag."
  | unexpectedAfterTransition found =>
    "\"" ++ found ++ "\" is not valid at the start of a code block. Only identifiers, keywords, " ++
      "comments, \"(\" and \"\x7b\" are valid."
  | lookupInComponent directive =>
    "The '@" ++ directive ++ "' directive is not valid in a component document. Use " ++
      "'@using <namespace>' instead."
  | tagPrefixInComponent directive =>
    "The '@" ++ directive ++ "' directive is not valid in a component document."

end Cause

/-- A broken rule and where it is broken. -/
structure Diagnostic where
  cause : Cause
  span : Span
  deriving DecidableEq, Repr

namespace Diagnostic

/-- The identifier of the broken rule. -/
def id (d : Diagnostic) : Text := d.cause.id

/-- How bad the diagnostic is. -/
def severity (d : Diagnostic) : Severity := d.cause.severity

/-- The wording of the broken rule. -/
def message (d : Diagnostic) : Text := d.cause.message

/-- The diagnostic stands for an error. -/
def isError (d : Diagnostic) : Bool := d.severity = .error

/-- The line of a report: where, how bad, which rule, and its wording; lines and columns count from
    one. -/
def render (d : Diagnostic) : Text :=
  d.span.pathOrUnknown ++ "(" ++ Text.ofNat (d.span.start.line + 1) ++ "," ++
    Text.ofNat (d.span.start.column + 1) ++ "): " ++ d.severity.render ++ " " ++ d.id ++ ": " ++
    d.message

/-- The order of diagnostics: by span, then by rule. -/
def le (d e : Diagnostic) : Bool :=
  ((Span.compare d.span e.span).then (Text.compare d.id e.id)).isLE

/-- The order of diagnostics that looks at the span only. -/
def spanLe (d e : Diagnostic) : Bool := Span.le d.span e.span

/-- Keeps the first of each run of equal diagnostics. -/
def dropRepeats : List Diagnostic → List Diagnostic
  | [] => []
  | [d] => [d]
  | d :: e :: rest => if d = e then dropRepeats (e :: rest) else d :: dropRepeats (e :: rest)

end Diagnostic

end RazorLang
