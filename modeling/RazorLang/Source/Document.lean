import RazorLang.Source.Location

/-!
# Source documents

A source document is a text with the paths it is known by. Its lines begin at `lineStarts`; the place of a
byte offset is found by counting the line starts up to it, which agrees with reading the text from its
start (`Location.advance`) except between the two characters of a `\r\n`.
-/

namespace RazorLang

/-- A source text and where it comes from. -/
structure Source where
  text : Text
  /-- The path that spans and checksums name. -/
  path : Option Text
  /-- The path within the project, where it is known apart from `path`. -/
  projectPath : Option Text
  deriving DecidableEq, Repr, Inhabited

namespace Source

/-- A source that no file holds. -/
def anonymous (text : Text) : Source := ⟨text, none, none⟩

/-- A source read from a file. -/
def ofFile (text path : Text) : Source := ⟨text, some path, none⟩

/-- Bytes in the source. -/
def size (d : Source) : Nat := Text.size d.text

/-- The path within the project, or else the path itself. -/
def relativePath (d : Source) : Option Text := d.projectPath.orElse fun _ => d.path

/-- The offsets right behind the line breaks of a text that starts at `offset`. -/
def breaksFrom (offset : Nat) : Text → List Nat
  | [] => []
  | '\r' :: '\n' :: t => (offset + 2) :: breaksFrom (offset + 2) t
  | c :: t =>
    if Text.isLineBreak c then (offset + 1) :: breaksFrom (offset + 1) t
    else breaksFrom (offset + c.utf8Size) t

/-- The offsets at which the lines of a text start; a text without breaks has one line. -/
def lineStartsOf (t : Text) : List Nat := 0 :: breaksFrom 0 t

/-- The offsets at which the source's lines start. -/
def lineStarts (d : Source) : List Nat := lineStartsOf d.text

/-- Number of lines. -/
def lineCount (d : Source) : Nat := d.lineStarts.length

/-- The offset at which a line starts. -/
def lineStart? (d : Source) (line : Nat) : Option Nat := d.lineStarts[line]?

/-- The text of a line without the break that ends it. -/
def lineText? (d : Source) (line : Nat) : Option Text := do
  let start ← d.lineStart? line
  let stop := (d.lineStart? (line + 1)).getD d.size
  let raw ← Text.slice? start stop d.text
  return Text.dropEndWhile Text.isLineBreak raw

/-- The place of an offset, given where the lines start. -/
def locate (starts : List Nat) (offset : Nat) : Location :=
  let upTo := starts.takeWhile (· ≤ offset)
  ⟨offset, upTo.length - 1, offset - upTo.getLast?.getD 0⟩

/-- The place of a byte offset; offsets past the end stand for the end. -/
def location (d : Source) (offset : Nat) : Location := locate d.lineStarts (min offset d.size)

/-- The span of `length` bytes from a byte offset on. -/
def span (d : Source) (offset length : Nat) : Span := ⟨d.path, d.location offset, length⟩

end Source

end RazorLang
