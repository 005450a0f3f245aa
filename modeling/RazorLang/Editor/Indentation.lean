import RazorLang.Text.Basic

/-!
# Indentation

How many columns the white space in front of a line takes, and which white space takes a number of columns.
The two fit together: what `Style.margin` writes for some columns, `measure` reads as that many.
-/

namespace RazorLang

namespace Indentation

/-- How lines are indented. -/
structure Style where
  /-- Columns between tab stops. -/
  tabSize : Nat := 4
  /-- Blanks only, and no tabs. -/
  blanks : Bool := true
  deriving DecidableEq, Repr

namespace Style

/-- The style that a user asks for; tab stops are at least one column apart. -/
def requested (tabSize : Nat) (blanks : Bool) : Style := ⟨max tabSize 1, blanks⟩

/-- The white space that takes a number of columns. -/
def margin (s : Style) (columns : Nat) : Text :=
  if s.blanks then List.replicate columns ' '
  else List.replicate (columns / s.tabSize) '\t' ++ List.replicate (columns % s.tabSize) ' '

end Style

/-- The column reached by writing a character at a column. -/
def advance (tabSize column : Nat) (c : Char) : Nat :=
  if c == '\t' then column - column % tabSize + tabSize else column + 1

/-- The columns that the blanks and tabs in front of a line take; without a tab size, tab stops are four
    columns apart. -/
def measure (line : Text) (tabSize : Nat) : Nat :=
  let stops := if tabSize = 0 then 4 else tabSize
  (line.takeWhile fun c => c == ' ' || c == '\t').foldl (advance stops) 0

end Indentation

end RazorLang
