import RazorLang.Configuration.LanguageVersion
import RazorLang.Configuration.HashAlgorithm

/-!
# Faults of the engine

Problems of a *document* are diagnostics. A `Fault` is a problem of the request itself: a setting that
cannot be honoured, a result asked for too early, or a request that was called off.
-/

namespace RazorLang

/-- What a processed document holds. -/
inductive Product where
  | syntaxTree
  | tagHelperContext
  | csharpDocument
  | htmlDocument
  deriving DecidableEq, Repr

/-- What the product is called in a message. -/
def Product.render : Product → Text
  | .syntaxTree => "syntax tree"
  | .tagHelperContext => "tag helper context"
  | .csharpDocument => "C# document"
  | .htmlDocument => "HTML document"

/-- Why a request to the engine fails. -/
inductive Fault where
  | unknownLanguageVersion (given : Text)
  | unknownHashAlgorithm (given : Text)
  | noIndentation
  | componentsNotSupported (version : LanguageVersion)
  | unsupportedChecksum (algorithm : HashAlgorithm)
  | notProduced (product : Product)
  | cancelled
  deriving DecidableEq, Repr

namespace Fault

/-- The families of faults. -/
inductive Kind where
  | invalidArgument
  | invalidOperation
  | unsupportedChecksumAlgorithm
  | cancelled
  deriving DecidableEq, Repr

/-- The name of a family. -/
def Kind.name : Kind → Text
  | .invalidArgument => "InvalidArgument"
  | .invalidOperation => "InvalidOperation"
  | .unsupportedChecksumAlgorithm => "UnsupportedChecksumAlgorithm"
  | .cancelled => "Cancelled"

/-- The family that a fault belongs to. -/
def kind : Fault → Kind
  | unknownLanguageVersion _ | unknownHashAlgorithm _ | noIndentation | componentsNotSupported _ =>
    .invalidArgument
  | unsupportedChecksum _ => .unsupportedChecksumAlgorithm
  | notProduced _ => .invalidOperation
  | cancelled => .cancelled

/-- The wording of a fault. -/
def message : Fault → Text
  | unknownLanguageVersion given => "unknown Razor language version '" ++ given ++ "'"
  | unknownHashAlgorithm given => "unknown hash algorithm '" ++ given ++ "'"
  | noIndentation => "indent_size must be greater than zero"
  | componentsNotSupported version =>
    "components require Razor language version 3.0 or later (configured: " ++ version.render ++ ")"
  | unsupportedChecksum algorithm =>
    "the hash algorithm '" ++ algorithm.render ++ "' is not supported for checksum generation; " ++
      "supported algorithms are SHA1 and SHA256"
  | notProduced product => product.render ++ " has not been produced for this document"
  | cancelled => "the operation was cancelled"

/-- What the user can do about a fault, where there is something. -/
def hint : Fault → Option Text
  | unsupportedChecksum _ => some "set `suppress_checksum` to disable checksum generation"
  | _ => none

/-- The whole report: family, wording, and the hint in parentheses. -/
def render (f : Fault) : Text :=
  f.kind.name ++ ": " ++ f.message ++
    match f.hint with
    | some h => " (" ++ h ++ ")"
    | none => ""

end Fault

namespace LanguageVersion

/-- Reads a version; what is not a version is reported in lower case and without outer white space. -/
def parse (t : Text) : Except Fault LanguageVersion :=
  match parse? t with
  | some v => .ok v
  | none => .error (.unknownLanguageVersion (Text.toLower (Text.trim t)))

end LanguageVersion

namespace HashAlgorithm

/-- Reads an algorithm; what is not one is reported in lower case and without outer white space. -/
def parse (t : Text) : Except Fault HashAlgorithm :=
  match parse? t with
  | some a => .ok a
  | none => .error (.unknownHashAlgorithm (Text.toLower (Text.trim t)))

/-- The identifier of an algorithm that a checksum line can name. -/
def guid (a : HashAlgorithm) : Except Fault Text :=
  match a.guid? with
  | some g => .ok g
  | none => .error (.unsupportedChecksum a)

/-- The digest of a text, for an algorithm that can be computed. -/
def digest (a : HashAlgorithm) (t : Text) : Except Fault (List UInt8) :=
  match a.digest? t with
  | some d => .ok d
  | none => .error (.unsupportedChecksum a)

end HashAlgorithm

end RazorLang
