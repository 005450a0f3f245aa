import RazorLang.Configuration.Options
import RazorLang.Source.Location

/-!
# Printing generated code

Generated code is printed from a list of instructions. `layout` turns them into chunks, deciding where lines
are indented; the code is what the chunks spell (`codeOf`), and the mappings are the chunks that copy a
piece of the source (`mappingsFrom`), so what a mapping links is the same text on both sides.
-/

namespace RazorLang

/-- A stretch of a source and the stretch of generated text that it became. -/
structure Mapping where
  source : Span
  generated : Span
  deriving DecidableEq, Repr, Inhabited

/-- A generated text with its mappings, in the order of the generated text. -/
structure Generated where
  code : Text
  mappings : List Mapping
  deriving DecidableEq, Repr, Inhabited

/-- An instruction to the printer. -/
inductive Print where
  /-- Writes a text. -/
  | write (t : Text)
  /-- Writes a text and ends the line. -/
  | line (t : Text)
  /-- Copies a text from a span of the source. -/
  | copy (t : Text) (source : Span)
  /-- Ends the line unless it is empty. -/
  | freshLine
  | indent
  | dedent
  deriving DecidableEq, Repr

namespace Print

/-- A header and an opening brace on lines of their own, and what follows indented. -/
def openBlock (header : Text) : List Print := [freshLine, line header, line "\x7b", indent]

/-- A closing brace on a line of its own. -/
def closeBlock : List Print := [freshLine, dedent, line "\x7d"]

end Print

/-- A piece of generated code, with the span it is copied from, if it is. -/
structure Chunk where
  text : Text
  source : Option Span := none
  deriving DecidableEq, Repr

/-- Where the printer stands. -/
structure PrintState where
  /-- Levels of indentation. -/
  depth : Nat := 0
  /-- Nothing has been written on the line. -/
  atLineStart : Bool := true
  deriving DecidableEq, Repr

namespace PrintState

/-- The chunk of a text, unless the text is empty. -/
def chunk (t : Text) : List Chunk := if t.isEmpty then [] else [{ text := t }]

/-- Whether the printer stands at the start of a line behind a text. -/
def behind (s : PrintState) (t : Text) : PrintState :=
  match t.getLast? with
  | none => s
  | some c => { s with atLineStart := c == '\n' }

/-- The indentation of a line. -/
def margin (o : Options) (s : PrintState) : Text :=
  if o.indentWithTabs then List.replicate s.depth '\t'
  else List.replicate (s.depth * o.indentSize) ' '

/-- The indentation that is due before a text. -/
def lead (o : Options) (s : PrintState) : Text := if s.atLineStart then s.margin o else []

/-- Carries out one instruction. -/
def step (o : Options) (s : PrintState) : Print → PrintState × List Chunk
  | .write t =>
    if t.isEmpty then (s, []) else (s.behind t, chunk (s.lead o) ++ chunk t)
  | .line t =>
    let s' := { s with atLineStart := true }
    if t.isEmpty then (s', chunk ['\n'])
    else (s', chunk (s.lead o) ++ chunk t ++ chunk ['\n'])
  | .copy t source =>
    let lead := s.lead o
    if t.isEmpty then (s.behind lead, chunk lead)
    else (s.behind t, chunk lead ++ [{ text := t, source := some source }])
  | .freshLine => if s.atLineStart then (s, []) else ({ s with atLineStart := true }, chunk ['\n'])
  | .indent => ({ s with depth := s.depth + 1 }, [])
  | .dedent => ({ s with depth := s.depth - 1 }, [])

end PrintState

/-- The chunks that some instructions print. -/
def layout (o : Options) (s : PrintState) : List Print → List Chunk
  | [] => []
  | p :: rest =>
    let (s, chunks) := s.step o p
    chunks ++ layout o s rest

/-- What some chunks spell. -/
def codeOf (chunks : List Chunk) : Text := chunks.flatMap (·.text)

/-- The mappings of chunks that start at a place. -/
def mappingsFrom (place : Location) : List Chunk → List Mapping
  | [] => []
  | c :: rest =>
    let mappings := mappingsFrom (place.advance c.text) rest
    match c.source with
    | some source => ⟨source, ⟨none, place, Text.size c.text⟩⟩ :: mappings
    | none => mappings

/-- Prints instructions. -/
def Generated.ofPrints (o : Options) (prints : List Print) : Generated :=
  let chunks := layout o {} prints
  ⟨codeOf chunks, mappingsFrom .start chunks⟩

end RazorLang
