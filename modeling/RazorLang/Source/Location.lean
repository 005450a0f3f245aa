import RazorLang.Text.Basic

/-!
# Locations and spans

A `Location` is a place in a source text: a byte offset with its line and the byte offset within that
line, all counted from zero. Reading on from a place is `Location.advance`; `\r\n`, `\n` and a lone
`\r` each end one line. A `Span` is a stretch of a named source, ordered by where it starts.
-/

namespace RazorLang

/-- A place in a source text. -/
structure Location where
  /-- Bytes before the place. -/
  offset : Nat
  /-- Line breaks before the place. -/
  line : Nat
  /-- Bytes between the last line break and the place. -/
  column : Nat
  deriving DecidableEq, Repr, Inhabited

namespace Location

/-- The start of every text. -/
def start : Location := ⟨0, 0, 0⟩

/-- The place reached by reading a text from here. -/
def advance (l : Location) : Text → Location
  | [] => l
  | '\r' :: '\n' :: t => advance ⟨l.offset + 2, l.line + 1, 0⟩ t
  | c :: t =>
    if Text.isLineBreak c then advance ⟨l.offset + 1, l.line + 1, 0⟩ t
    else advance ⟨l.offset + c.utf8Size, l.line, l.column + c.utf8Size⟩ t

/-- The written form of a place: the offset, then line and column. -/
def render (l : Location) : Text :=
  "(" ++ Text.ofNat l.offset ++ ":" ++ Text.ofNat l.line ++ "," ++ Text.ofNat l.column ++ ")"

end Location

/-- A stretch of a source. -/
structure Span where
  /-- The file that the source was read from, if it has one. -/
  path : Option Text
  /-- Where the stretch starts. -/
  start : Location
  /-- Bytes in the stretch. -/
  length : Nat
  deriving DecidableEq, Repr, Inhabited

namespace Span

/-- The byte offset behind the last byte of a span. -/
def stop (s : Span) : Nat := s.start.offset + s.length

/-- The span of no bytes at a place. -/
def empty (path : Option Text) (l : Location) : Span := ⟨path, l, 0⟩

/-- The index is one of the span's bytes. -/
def contains (s : Span) (i : Nat) : Bool := s.start.offset ≤ i && i < s.stop

/-- The index is one of the span's bytes or the one behind them. -/
def touches (s : Span) (i : Nat) : Bool := s.start.offset ≤ i && i ≤ s.stop

theorem contains_eq_true {s : Span} {i : Nat} :
    s.contains i = true ↔ s.start.offset ≤ i ∧ i < s.stop := by
  rw [contains, Bool.and_eq_true, decide_eq_true_eq, decide_eq_true_eq]

theorem touches_eq_true {s : Span} {i : Nat} :
    s.touches i = true ↔ s.start.offset ≤ i ∧ i ≤ s.stop := by
  rw [touches, Bool.and_eq_true, decide_eq_true_eq, decide_eq_true_eq]

/-- A span of no bytes. -/
def isEmpty (s : Span) : Bool := s.length == 0

/-- An absent path comes before every path. -/
def comparePath : Option Text → Option Text → Ordering
  | none, none => .eq
  | none, some _ => .lt
  | some _, none => .gt
  | some p, some q => Text.compare p q

/-- Spans are ordered by where they start, then by length; line, column and path only tell apart spans
    that agree in both. -/
def compare (s t : Span) : Ordering :=
  (Ord.compare s.start.offset t.start.offset).then <|
    (Ord.compare s.length t.length).then <|
      (Ord.compare s.start.line t.start.line).then <|
        (Ord.compare s.start.column t.start.column).then <|
          comparePath s.path t.path

/-- The order of spans as a test. -/
def le (s t : Span) : Bool := (compare s t).isLE

/-- What stands for the path of a source without one. -/
def pathOrUnknown (s : Span) : Text := s.path.getD "<unknown>"

/-- The written form of a span: its place, its length and its source. -/
def render (s : Span) : Text :=
  "(" ++ Text.ofNat s.start.offset ++ ":" ++ Text.ofNat s.start.line ++ "," ++
    Text.ofNat s.start.column ++ " [" ++ Text.ofNat s.length ++ "] " ++ s.pathOrUnknown ++ ")"

end Span

end RazorLang
