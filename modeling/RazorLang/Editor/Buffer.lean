import RazorLang.Editor.Position

/-!
# Buffers

A `Buffer` is the text that an editor shows, seen as lines. Places in it are byte offsets on one side and
positions on the other:

* `lines` — the lines, each with the break that ends it; their texts concatenate to the whole
  (`text_lines`).
* `index?` and `position?` — from a position to an offset and back, each by walking the lines.
* `edited?` — the text after edits that all speak of the text before them.

More characters break a line here than in source text: also the vertical tab, the form feed, and the
line and paragraph separators of Unicode.
-/

namespace RazorLang

/-- The text that an editor shows. -/
structure Buffer where
  text : Text
  deriving DecidableEq, Repr, Inhabited

namespace Buffer

/-- A line without its break, and the break. -/
structure Line where
  body : Text
  ending : Text
  deriving DecidableEq, Repr, Inhabited

namespace Line

/-- The whole line. -/
def text (l : Line) : Text := l.body ++ l.ending

/-- Bytes of a line with its break. -/
def size (l : Line) : Nat := Text.size l.text

end Line

/-- The characters that break a line. -/
def isBreak (c : Char) : Bool :=
  let n := c.toNat
  (0xA ≤ n && n ≤ 0xD) || n == 0x85 || n == 0x2028 || n == 0x2029

/-- Puts a character in front of the first of some lines. -/
def extend (c : Char) : List Line → List Line
  | [] => [⟨[c], []⟩]
  | l :: rest => { l with body := c :: l.body } :: rest

/-- The lines of a text; the last has no break, and it may be empty. -/
def linesOf : Text → List Line
  | [] => [⟨[], []⟩]
  | '\r' :: '\n' :: t => ⟨[], ['\r', '\n']⟩ :: linesOf t
  | c :: t => if isBreak c then ⟨[], [c]⟩ :: linesOf t else extend c (linesOf t)

/-- What some lines spell. -/
def textOf (ls : List Line) : Text := ls.flatMap Line.text

theorem textOf_extend (c : Char) (ls : List Line) : textOf (extend c ls) = c :: textOf ls := by
  cases ls <;> simp [extend, textOf, Line.text]

/-- Splitting a text into lines loses nothing. -/
theorem textOf_linesOf (t : Text) : textOf (linesOf t) = t := by
  fun_induction linesOf t with
  | case1 => rfl
  | case2 t ih => simpa [textOf, Line.text] using ih
  | case3 c t _ _ ih => simpa [textOf, Line.text] using ih
  | case4 c t _ _ ih => simp [textOf_extend, ih]

/-- The lines of the buffer. -/
def lines (b : Buffer) : List Line := linesOf b.text

theorem text_lines (b : Buffer) : textOf b.lines = b.text := textOf_linesOf b.text

/-- Bytes in the buffer. -/
def size (b : Buffer) : Nat := Text.size b.text

/-- Number of lines. -/
def lineCount (b : Buffer) : Nat := b.lines.length

/-- The offset at which a line starts. -/
def lineStart? (b : Buffer) (line : Nat) : Option Nat :=
  if line < b.lineCount then some (Text.size (textOf (b.lines.take line))) else none

/-- The text of a line without its break. -/
def lineText? (b : Buffer) (line : Nat) : Option Text := (b.lines[line]?).map (·.body)

/-! ## Positions and offsets -/

/-- The number of UTF-16 code units of a character: a surrogate pair beyond the first 65536. -/
def width (c : Char) : Nat := if c.toNat < 0x10000 then 1 else 2

/-- The number of UTF-16 code units of a text. -/
def units : Text → Nat
  | [] => 0
  | c :: t => width c + units t

/-- The bytes in front of the character that a number of UTF-16 code units leads to; none past the end of
    the text. -/
def bytesFor? : Nat → Text → Option Nat
  | 0, _ => some 0
  | _ + 1, [] => none
  | n + 1, c :: t =>
    if width c ≤ n + 1 then (bytesFor? (n + 1 - width c) t).map (c.utf8Size + ·)
    else some 0

/-- The characters of a text that end at or before a byte offset, and the others. -/
def cut : Nat → Text → Text × Text
  | _, [] => ([], [])
  | n, c :: t =>
    if c.utf8Size ≤ n then
      let (u, v) := cut (n - c.utf8Size) t
      (c :: u, v)
    else ([], c :: t)

/-- The offset of a position; none for a position that the text does not have. A position inside a
    surrogate pair stands for the character of the pair. -/
def index? (b : Buffer) (p : Position) : Option Nat := do
  let start ← b.lineStart? p.line
  let body ← b.lineText? p.line
  let inside ← bytesFor? p.units body
  return start + inside

/-- The position of an offset in lines of which the first has a number. -/
def positionIn? (line : Nat) : List Line → Nat → Option Position
  | [], _ => none
  | l :: rest, i =>
    if i < l.size || (rest.isEmpty && i == l.size) then some ⟨line, units (cut i l.text).1⟩
    else positionIn? (line + 1) rest (i - l.size)

/-- The position of an offset; none past the end of the text. An offset inside a character stands for
    that character. -/
def position? (b : Buffer) (i : Nat) : Option Position := positionIn? 0 b.lines i

/-- The offsets of the ends of a range that does not run backwards. -/
def span? (b : Buffer) (r : Range) : Option (Nat × Nat) := do
  let start ← b.index? r.start
  let stop ← b.index? r.stop
  if start ≤ stop then return (start, stop) else none

/-- The range between two offsets. -/
def range? (b : Buffer) (start stop : Nat) : Option Range := do
  return ⟨← b.position? start, ← b.position? stop⟩

/-- The characters between two offsets. -/
def slice? (b : Buffer) (start stop : Nat) : Option Text :=
  if start ≤ stop && stop ≤ b.size then
    some ((cut stop b.text).1.drop (cut start b.text).1.length)
  else none

/-! ## Edits -/

/-- A text that takes the place of the bytes between two offsets. -/
structure Splice where
  start : Nat
  stop : Nat
  text : Text
  deriving DecidableEq, Repr

/-- The order in which splices are carried out: by their start, then by their end. -/
def Splice.le (s t : Splice) : Bool := s.start < t.start || (s.start == t.start && s.stop ≤ t.stop)

/-- The bytes that an edit replaces. -/
def splice? (b : Buffer) (e : Edit) : Option Splice := do
  let (start, stop) ← b.span? e.range
  return ⟨start, stop, e.text⟩

/-- No splice starts before the one in front of it ends. -/
def areApart : List Splice → Bool
  | [] | [_] => true
  | s :: t :: rest => s.stop ≤ t.start && areApart (t :: rest)

/-- The part of a text from an offset on, after splices that are apart and lie behind that offset. -/
def spliced (at_ : Nat) : Text → List Splice → Text
  | t, [] => t
  | t, s :: rest =>
    let (before, behind) := cut (s.start - at_) t
    before ++ s.text ++ spliced s.stop (cut (s.stop - s.start) behind).2 rest

/-- The buffer after edits, whose ranges all speak of the buffer before them; none if a range does not
    exist or two of them overlap. -/
def edited? (b : Buffer) (edits : List Edit) : Option Buffer := do
  let splices ← edits.mapM b.splice?
  let splices := splices.mergeSort Splice.le
  if areApart splices then return ⟨spliced 0 b.text splices⟩ else none

end Buffer

end RazorLang
