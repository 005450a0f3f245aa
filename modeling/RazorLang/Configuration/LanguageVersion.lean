import RazorLang.Text.Basic

/-!
# Versions of the Razor language
-/

namespace RazorLang

/-- The versions of the language, the oldest first. -/
inductive LanguageVersion where
  | v1_0
  | v2_0
  | v2_1
  | v3_0
  | v5_0
  | v6_0
  | v7_0
  | v8_0
  | latest
  deriving DecidableEq, Repr, Inhabited

namespace LanguageVersion

/-- All versions, the oldest first. -/
def all : List LanguageVersion := [v1_0, v2_0, v2_1, v3_0, v5_0, v6_0, v7_0, v8_0, latest]

/-- The place of a version in their order. -/
def rank : LanguageVersion → Nat
  | v1_0 => 0
  | v2_0 => 1
  | v2_1 => 2
  | v3_0 => 3
  | v5_0 => 4
  | v6_0 => 5
  | v7_0 => 6
  | v8_0 => 7
  | latest => 8

/-- The version as it is shown. -/
def render : LanguageVersion → Text
  | v1_0 => "1.0"
  | v2_0 => "2.0"
  | v2_1 => "2.1"
  | v3_0 => "3.0"
  | v5_0 => "5.0"
  | v6_0 => "6.0"
  | v7_0 => "7.0"
  | v8_0 => "8.0"
  | latest => "Latest"

/-- Components came with version 3.0. -/
def supportsComponents (v : LanguageVersion) : Bool := v3_0.rank ≤ v.rank

/-- The version that a text names, in any case and with white space around it; `experimental` is the
    latest. -/
def parse? (t : Text) : Option LanguageVersion :=
  let wanted := Text.toLower (Text.trim t)
  if wanted == "experimental".toList then some latest
  else all.find? fun v => Text.toLower v.render == wanted

end LanguageVersion

end RazorLang
