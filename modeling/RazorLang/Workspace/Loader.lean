import RazorLang.Text.Basic
import RazorLang.Workspace.Version

/-!
# Where texts come from

A `Loader` says where the text of a document comes from: it is known, or a file has to be read, or the
text is known but not yet its version, which depends on the text before it. What a file says is a function
of how often it has been read, so one that changes or fails now and then is described too.
-/

namespace RazorLang

/-- A text with its version. -/
structure VersionedText where
  text : Text
  version : Version
  deriving DecidableEq, Repr, Inhabited

/-- What comes of reading a file. -/
inductive Reading where
  /-- A text that has a version. -/
  | versioned (value : VersionedText)
  /-- A text that gets a version now. -/
  | fresh (text : Text)
  | failed (reason : Text)
  deriving DecidableEq, Repr

/-- A file with a text. -/
structure TextFile where
  /-- Tells files apart; it is the serial of a version that nothing else has. -/
  key : Nat
  path : Text
  /-- What comes of reading the file when it has been read so often before. -/
  reading : Nat → Reading

/-- Where the text of a document comes from. -/
inductive Loader where
  | known (value : VersionedText)
  | file (f : TextFile)
  /-- A text that took the place of another one that nobody has seen yet. -/
  | replaced (older : Loader) (text : Text)

namespace Loader

/-- The text, if it is known without reading anything. -/
def peek? : Loader → Option VersionedText
  | known value => some value
  | file _ | replaced .. => none

end Loader

end RazorLang
