import RazorLang.Text.Basic

/-!
# Positions, ranges and edits

An editor names a place by its line and by the number of UTF-16 code units before it on that line. A
`Range` runs between two such places and an `Edit` puts a new text in place of a range.
-/

namespace RazorLang

/-- A place in the text that an editor shows; lines and units count from zero. -/
structure Position where
  line : Nat
  /-- UTF-16 code units before the place on its line. -/
  units : Nat
  deriving DecidableEq, Repr, Inhabited

namespace Position

/-- The start of every text. -/
def start : Position := ⟨0, 0⟩

/-- The largest number that an editor can name. -/
def limit : Nat := 4294967295

/-- The place that stands for no place at all. -/
def undefined : Position := ⟨limit, limit⟩

/-- The order of places in one text. -/
def le (p q : Position) : Bool := p.line < q.line || (p.line == q.line && p.units ≤ q.units)

end Position

/-- What lies between two places. -/
structure Range where
  start : Position
  stop : Position
  deriving DecidableEq, Repr, Inhabited

/-- The range that stands for no range at all. -/
def Range.undefined : Range := ⟨.undefined, .undefined⟩

/-- The range of no characters at a place. -/
def Range.empty (p : Position) : Range := ⟨p, p⟩

/-- A text that takes the place of a range. -/
structure Edit where
  range : Range
  text : Text
  deriving DecidableEq, Repr, Inhabited

end RazorLang
