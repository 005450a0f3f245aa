import RazorLang.Editor.Projection

/-!
# Reports to an editor

A `Report` is what an editor underlines. Reports of the compilers of the two projections are moved to the
document; what is wrong with the document itself is reported as it is.

* Reports on generated C# move strictly; one that cannot is kept, without a place, if it is an error.
* Reports on the HTML projection keep their range, and only those that start in markup are kept.
-/

namespace RazorLang

/-- How an editor marks a report. -/
inductive Urgency where
  | error
  | warning
  | information
  | hint
  deriving DecidableEq, Repr

namespace Urgency

/-- The number of an urgency. -/
def number : Urgency → Nat
  | error => 1
  | warning => 2
  | information => 3
  | hint => 4

/-- The urgency with a number. -/
def ofNumber? (n : Nat) : Option Urgency :=
  [error, warning, information, hint].find? (·.number == n)

end Urgency

/-- What an editor underlines. -/
structure Report where
  range : Range
  urgency : Option Urgency
  code : Option Text := none
  /-- Who reports it. -/
  source : Option Text := none
  message : Text
  deriving DecidableEq, Repr

namespace Report

/-- The mark of a severity. -/
def urgencyOf : Severity → Urgency
  | .error => .error
  | .warning => .warning

/-- Moves a report on generated C# to the document. -/
def ofCSharp? (p : Projection) (document : Buffer) (r : Report) : Option Report :=
  match p.sourceRange? document r.range .strict with
  | some range => some { r with range }
  | none => if r.urgency = some .error then some { r with range := .undefined } else none

/-- Moves reports on generated C# to the document. -/
def ofCSharp (p : Projection) (document : Buffer) (rs : List Report) : List Report :=
  rs.filterMap (ofCSharp? p document)

/-- Keeps the reports on the HTML projection that start in markup. -/
def ofHtml (d : CodeDocument) (document : Buffer) (rs : List Report) : List Report :=
  rs.filter fun r =>
    match document.index? r.range.start with
    | some i => d.languageAt i == .html
    | none => false

/-- The report of a diagnostic of the document. -/
def ofDiagnostic (document : Buffer) (d : Diagnostic) : Report :=
  { range := (document.range? d.span.start.offset d.span.stop).getD .undefined
    urgency := some (urgencyOf d.severity)
    code := some d.id
    source := some "Razor"
    message := d.message }

/-- The reports of everything that is wrong with a document. -/
def ofDocument (d : CodeDocument) (document : Buffer) : List Report :=
  d.diagnostics.map (ofDiagnostic document)

end Report

end RazorLang
