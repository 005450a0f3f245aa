/-!
# Versions

A `Version` marks a state of a text, of a setting or of something generated. Versions are handed out in
order, each once, so the newest of several inputs tells whether what was made from them is out of date.
-/

namespace RazorLang

/-- The mark of a state. -/
structure Version where
  serial : Nat
  deriving DecidableEq, Repr, Inhabited

namespace Version

/-- The first version was handed out earlier than the second. -/
def isOlderThan (v w : Version) : Bool := v.serial < w.serial

/-- The one of two versions that was handed out later. -/
def newer (v w : Version) : Version := if v.isOlderThan w then w else v

/-- The newest of a version and some others. -/
def newest (v : Version) (others : List Version) : Version := others.foldl newer v

theorem newer_serial (v w : Version) : (newer v w).serial = max v.serial w.serial := by
  rw [newer]
  by_cases h : v.isOlderThan w = true
  · rw [if_pos h]
    have : v.serial < w.serial := of_decide_eq_true h
    omega
  · rw [if_neg h]
    have : ¬ v.serial < w.serial := fun older => h (decide_eq_true older)
    omega

end Version

end RazorLang
