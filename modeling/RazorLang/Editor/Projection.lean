import RazorLang.Editor.Buffer
import RazorLang.Editor.LanguageKind

/-!
# Projections

A `Projection` is one of the generated texts of a document together with its mappings. Offsets, positions,
ranges and edits move along the mappings, from the document to the projection and back:

* `generatedIndex?` and `sourceIndex?` use the first mapping that touches an offset;
* with `Reach.inclusive` what no mapping touches moves to the nearest one that does, `nearest?`;
* what cannot be moved is left out, or stands as `Range.undefined` where a range is needed.
-/

namespace RazorLang

/-- How far away from the mappings a place may lie. -/
inductive Reach where
  /-- On a mapping. -/
  | strict
  /-- Anywhere; the nearest mapping stands in. -/
  | inclusive
  deriving DecidableEq, Repr, Inhabited

namespace Mapping

/-- The mapping with the greatest source start that is not behind an offset; of several, the first if
    they start at the offset, and the last otherwise. -/
def nearest? (ms : List Mapping) (i : Nat) : Option Mapping :=
  let sorted := ms.mergeSort fun m n => m.source.start.offset ≤ n.source.start.offset
  let before := sorted.takeWhile (·.source.start.offset < i)
  let behind := sorted.dropWhile (·.source.start.offset < i)
  match behind.head? with
  | some m => if m.source.start.offset = i then some m else before.getLast?
  | none => before.getLast?

/-- The generated offset of a source offset that a mapping touches. -/
def strictIndex? (ms : List Mapping) (i : Nat) : Option Nat :=
  (ms.find? (·.source.touches i)).map fun m =>
    m.generated.start.offset + min (i - m.source.start.offset) m.generated.length

/-- The generated offset of a source offset. -/
def generatedIndex? (ms : List Mapping) (i : Nat) : Reach → Option Nat
  | .strict => strictIndex? ms i
  | .inclusive => (strictIndex? ms i).orElse fun _ => (nearest? ms i).map (·.generated.stop)

/-- The source offset of a generated one that a mapping touches. -/
def sourceIndex? (ms : List Mapping) (i : Nat) : Option Nat :=
  (ms.find? (·.generated.touches i)).map fun m =>
    m.source.start.offset + min (i - m.generated.start.offset) m.source.length

/-- The mappings that share bytes with a generated stretch. -/
def overlapping (ms : List Mapping) (start stop : Nat) : List Mapping :=
  ms.filter fun m => m.generated.start.offset < stop && start < m.generated.stop

/-- The source stretch of a generated one, whose ends may lie off the mappings as long as some mapping
    shares bytes with it. -/
def coveringSpan? (ms : List Mapping) (start stop : Nat) : Option (Nat × Nat) := do
  let overlapped := overlapping ms start stop
  let first ← overlapped.head?
  let last ← overlapped.getLast?
  let sourceStart := (sourceIndex? ms start).getD first.source.start.offset
  let sourceStop := (sourceIndex? ms stop).getD last.source.stop
  if sourceStart ≤ sourceStop then return (sourceStart, sourceStop) else none

/-- The source stretch of a generated one whose ends lie on mappings, in the order of the source. -/
def strictSpan? (ms : List Mapping) (start stop : Nat) : Option (Nat × Nat) := do
  let sourceStart ← sourceIndex? ms start
  let sourceStop ← sourceIndex? ms stop
  if sourceStart ≤ sourceStop then return (sourceStart, sourceStop) else none

/-- The source stretch of a generated one. -/
def sourceSpan? (ms : List Mapping) (start stop : Nat) : Reach → Option (Nat × Nat)
  | .strict => strictSpan? ms start stop
  | .inclusive => (strictSpan? ms start stop).orElse fun _ => coveringSpan? ms start stop

end Mapping

/-- A generated text with its mappings, in the language it is in. -/
structure Projection where
  kind : LanguageKind
  generated : Generated
  deriving DecidableEq, Repr

namespace Projection

/-- The generated text as an editor shows it. -/
def buffer (p : Projection) : Buffer := ⟨p.generated.code⟩

/-- The mappings of the projection. -/
def mappings (p : Projection) : List Mapping := p.generated.mappings

/-- The generated position of a position in the document. -/
def generatedPosition? (p : Projection) (document : Buffer) (at_ : Position) (reach : Reach) :
    Option Position := do
  let i ← document.index? at_
  let j ← Mapping.generatedIndex? p.mappings i reach
  p.buffer.position? j

/-- The position in the document of a generated one. -/
def sourcePosition? (p : Projection) (document : Buffer) (at_ : Position) : Option Position := do
  let i ← p.buffer.index? at_
  let j ← Mapping.sourceIndex? p.mappings i
  document.position? j

/-- The generated range of a range in the document, both ends of which lie on mappings. -/
def generatedRange? (p : Projection) (document : Buffer) (r : Range) : Option Range := do
  let start ← p.generatedPosition? document r.start .strict
  let stop ← p.generatedPosition? document r.stop .strict
  if start.le stop then return ⟨start, stop⟩ else none

/-- The range in the document of a generated one. -/
def sourceRange? (p : Projection) (document : Buffer) (r : Range) (reach : Reach) :
    Option Range := do
  let (start, stop) ← p.buffer.span? r
  let (sourceStart, sourceStop) ← Mapping.sourceSpan? p.mappings start stop reach
  document.range? sourceStart sourceStop

/-- The range in the document of a generated one, or what stands for no range. -/
def sourceRange (p : Projection) (document : Buffer) (r : Range) (reach : Reach) : Range :=
  (p.sourceRange? document r reach).getD .undefined

/-- Moves edits of the generated text to the document, and leaves out those that lie off the mappings. -/
def sourceEdits (p : Projection) (document : Buffer) (edits : List Edit) : List Edit :=
  edits.filterMap fun e =>
    (p.sourceRange? document e.range .strict).map fun range => { e with range }

end Projection

namespace Compilation

/-- The generated C# as a projection. -/
def csharpProjection (c : Compilation) : Projection := ⟨.csharp, c.csharp⟩

/-- The HTML projection. -/
def htmlProjection (c : Compilation) : Projection := ⟨.html, c.html⟩

/-- The document as an editor shows it. -/
def buffer (c : Compilation) : Buffer := ⟨c.request.source.text⟩

end Compilation

namespace CodeDocument

/-- The generated C# of a document as a projection. -/
def csharpProjection (d : CodeDocument) : Except Fault Projection := return ⟨.csharp, ← d.csharp⟩

/-- The HTML projection of a document. -/
def htmlProjection (d : CodeDocument) : Except Fault Projection := return ⟨.html, ← d.html⟩

end CodeDocument

end RazorLang
