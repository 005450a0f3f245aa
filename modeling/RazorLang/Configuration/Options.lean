import RazorLang.Configuration.FileKind
import RazorLang.Configuration.Fault

/-!
# Engine options

Everything besides the texts that decides what is generated for a document. `validate` refuses the two
settings that no code can be generated with.
-/

namespace RazorLang

/-- The settings of an engine. -/
structure Options where
  fileKind : FileKind := .legacy
  languageVersion : LanguageVersion := .latest
  /-- Code for an editor: nothing of the markup is written. -/
  designTime : Bool := false
  checksum : HashAlgorithm := .sha256
  /-- Leaves the checksum line out. -/
  suppressChecksum : Bool := false
  rootNamespace : Option Text := none
  /-- Blanks for one level of indentation. -/
  indentSize : Nat := 4
  /-- One tab for each level of indentation, whatever `indentSize` is. -/
  indentWithTabs : Bool := false
  deriving DecidableEq, Repr, Inhabited

namespace Options

/-- Refuses an indentation of nothing, and components in a version without them. -/
def validate (o : Options) : Except Fault Unit :=
  if o.indentSize = 0 ∧ o.indentWithTabs = false then .error .noIndentation
  else if o.fileKind.isComponent && !o.languageVersion.supportsComponents then
    .error (.componentsNotSupported o.languageVersion)
  else .ok ()

end Options

end RazorLang
