import RazorLang.Configuration.Options
import RazorLang.Editor.Position
import RazorLang.Token.Mode

/-!
# What can be asked for on the command line

An `Invocation` is one of the commands with everything that it needs to know. Settings of the engine are kept
as they are given; what they mean is found out when the command runs.
-/

namespace RazorLang.CommandLine

/-- Settings that all commands share which compile a document. -/
structure Settings where
  designTime : Bool := false
  /-- The file with the tag helpers of the project. -/
  tagHelpers : Option Text := none
  /-- The files whose directives hold for the document too, outermost first. -/
  imports : List Text := []
  checksum : Text := "sha256"
  noChecksum : Bool := false
  languageVersion : Text := "latest"
  rootNamespace : Option Text := none
  deriving DecidableEq, Repr

/-- What the settings mean to the engine. -/
def Settings.options (s : Settings) : Except Fault Options := do
  let checksum ← HashAlgorithm.parse s.checksum
  let languageVersion ← LanguageVersion.parse s.languageVersion
  return { languageVersion, checksum, designTime := s.designTime, suppressChecksum := s.noChecksum,
           rootNamespace := s.rootNamespace }

/-- The commands. -/
inductive Invocation where
  /-- Writes a generated text to a file, or to the standard output. -/
  | generate (language : Language) (file : Text) (output : Option Text) (settings : Settings)
  /-- Lists the tokens of a file. -/
  | tokens (file : Text) (language : Language) (json : Bool)
  /-- Prints the outline of a document. -/
  | tree (file : Text) (settings : Settings)
  /-- Tells where a position is in the generated C#. -/
  | map (file : Text) (position : Position) (settings : Settings)
  deriving DecidableEq, Repr

end RazorLang.CommandLine
