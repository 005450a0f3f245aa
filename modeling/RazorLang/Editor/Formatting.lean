import RazorLang.Editor.Indentation
import RazorLang.Editor.Projection

/-!
# Formatting

The formatters of the two projected languages live elsewhere and know the generated texts only. A request
to format the document is a `Consultation`: either it is settled at once, or a formatter is asked a question
about a generated text, and the outcome follows from its answer, if it gives one.
-/

namespace RazorLang

/-- An outcome that may hang on the answer to one question. -/
inductive Consultation (Question Answer Outcome : Type) where
  | settled (outcome : Outcome)
  | asks (question : Question) (conclude : Option Answer → Outcome)

namespace Consultation

variable {Question Answer Outcome Result : Type}

/-- The outcome when a formatter answers. -/
def settle (formatter : Question → Option Answer) : Consultation Question Answer Outcome → Outcome
  | settled outcome => outcome
  | asks question conclude => conclude (formatter question)

/-- The question that is asked. -/
def question? : Consultation Question Answer Outcome → Option Question
  | settled _ => none
  | asks question _ => some question

/-- Makes something of the outcome. -/
def map (f : Outcome → Result) :
    Consultation Question Answer Outcome → Consultation Question Answer Result
  | settled outcome => settled (f outcome)
  | asks question conclude => asks question fun a => f (conclude a)

end Consultation

namespace Formatting

/-! ## Indentation of lines -/

/-- The number of bytes of white space in front of a line. -/
def marginSize (line : Text) : Nat := Text.size (line.takeWhile Text.isSpace)

/-- Where a line is in the generated text: where its first character is copied to or, if it is not
    copied, where the nearest mapping in front of it ends. -/
def anchor? (p : Projection) (document : Buffer) (line : Nat) : Option Nat := do
  let start ← document.lineStart? line
  let body ← document.lineText? line
  Mapping.generatedIndex? p.mappings (start + marginSize body) .inclusive

/-- The columns of lines, in the order of the lines. -/
abbrev Columns := List (Nat × Nat)

/-- Notes the columns of a line, among lines in order. -/
def Columns.note (line columns : Nat) : Columns → Columns
  | [] => [(line, columns)]
  | (l, c) :: rest =>
    if line < l then (line, columns) :: (l, c) :: rest
    else if line = l then (line, columns) :: rest
    else (l, c) :: note line columns rest

/-- Lines with their columns, each once and in order. -/
def Columns.ofList (pairs : List (Nat × Nat)) : Columns :=
  pairs.foldl (fun columns (line, c) => Columns.note line c columns) []

/-- The least of some numbers, or zero. -/
def leastOf (ns : List Nat) : Nat := ns.min?.getD 0

/-- What was answered for an offset; the last answer counts. -/
def answerFor? (answers : List (Nat × Nat)) (offset : Nat) : Option Nat :=
  answers.reverse.lookup offset

/-- The columns of lines relative to the least indented mapping. -/
def relativeColumns (starts : List Nat) (anchors : List (Nat × Option Nat))
    (answers : List (Nat × Nat)) : Columns :=
  let least := leastOf (starts.filterMap (answerFor? answers))
  Columns.ofList <| anchors.map fun (line, anchor) =>
    match anchor with
    | none => (line, 0)
    | some offset => (line, (answerFor? answers offset).getD least - least)

/-- Asks for the indentation of some lines; none if the formatter has no answer, or not one for each
    place it is asked about. -/
def columns (c : Compilation) (lines : List Nat) :
    Consultation (List Position) (List Nat) (Option Columns) :=
  let p := c.csharpProjection
  if p.mappings.isEmpty then .settled (some (.ofList (lines.map (·, 0))))
  else
    let anchors := lines.map fun line => (line, anchor? p c.buffer line)
    let starts := p.mappings.map (·.generated.start.offset)
    let offsets := starts ++ anchors.filterMap Prod.snd
    match offsets.mapM p.buffer.position? with
    | none => .settled none
    | some places =>
      .asks places fun answer? => do
        let answer ← answer?
        if answer.length = places.length then
          return relativeColumns starts anchors (offsets.zip answer)
        else none

/-- The edit that gives a line its columns, unless the line is blank or has them. -/
def marginEdit? (document : Buffer) (s : Indentation.Style) (line columns : Nat) : Option Edit := do
  let body ← document.lineText? line
  let present := body.takeWhile Text.isSpace
  let wanted := s.margin columns
  if Text.isBlank body || present == wanted then none
  else return ⟨⟨⟨line, 0⟩, ⟨line, Buffer.units present⟩⟩, wanted⟩

/-- The edits that give lines their columns. -/
def marginEdits (document : Buffer) (s : Indentation.Style) (columns : Columns) : List Edit :=
  columns.filterMap fun (line, c) => marginEdit? document s line c

/-- Asks for edits that indent some lines. -/
def indentation (c : Compilation) (s : Indentation.Style) (lines : List Nat) :
    Consultation (List Position) (List Nat) (List Edit) :=
  (columns c lines).map fun found => (found.map (marginEdits c.buffer s)).getD []

/-! ## Ranges -/

/-- Asks for edits of a range of C#, and moves them to the document. -/
def csharpRange (c : Compilation) (r : Range) : Consultation Range (List Edit) (List Edit) :=
  let p := c.csharpProjection
  match p.generatedRange? c.buffer r with
  | none => .settled []
  | some generated => .asks generated fun answer => p.sourceEdits c.buffer (answer.getD [])

/-- Both ends of a stretch are in markup. -/
def isMarkup (c : Compilation) (start stop : Nat) : Bool :=
  c.document.root.languageAt start == .html && c.document.root.languageAt stop == .html

/-- The edit of the document for an edit of the HTML projection that lies in markup. -/
def markupEdit? (c : Compilation) (e : Edit) : Option Edit := do
  let (start, stop) ← c.htmlProjection.buffer.span? e.range
  let range ← c.buffer.range? start stop
  if isMarkup c start stop then return { e with range } else none

/-- Asks for edits of a range of markup. -/
def htmlRange (c : Compilation) (r : Range) : Consultation Range (List Edit) (List Edit) :=
  let generated? : Option Range := do
    let (start, stop) ← c.buffer.span? r
    c.htmlProjection.buffer.range? start stop
  match generated? with
  | none => .settled []
  | some generated => .asks generated fun answer => (answer.getD []).filterMap (markupEdit? c)

end Formatting

end RazorLang
