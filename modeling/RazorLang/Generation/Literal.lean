import RazorLang.TagHelper.Resolution

/-!
# Names and literals in generated code
-/

namespace RazorLang

/-- One character of a string literal. -/
def literalChar (c : Char) : Text :=
  if c == '"' then "\\\""
  else if c == '\\' then "\\\\"
  else if c == '\n' then "\\n"
  else if c == '\r' then "\\r"
  else if c == '\t' then "\\t"
  else if c == '\x00' then "\\0"
  else [c]

/-- The string literal of C# that stands for a text. -/
def stringLiteral (t : Text) : Text := "\"" ++ t.flatMap literalChar ++ "\""

/-- The name of the field that holds a tag helper of a type. -/
def fieldName (type : Text) : Text :=
  "__" ++ type.map fun c => if Text.isLetter c || Text.isNumber c || c == '_' then c else '_'

/-- The types that a string literal is a value of. -/
def isStringType (type : Text) : Bool :=
  (["string", "System.String", "global::System.String"] : List Text).contains type

/-- The path without the extension of its file; a dot that starts the file's name starts no
    extension. -/
def dropExtension (path : Text) : Text :=
  let file := FileKind.fileName path
  match Text.splitLast? (· == '.') file with
  | some (c :: base, _) => path.take (path.length - file.length) ++ c :: base
  | _ => path

/-- The parts of a path that name a class, as identifiers; a drive is not one of them. -/
def classNameParts (path : Text) : List Text :=
  ((Text.splitAll FileKind.isPathSeparator (dropExtension path)).filter fun s =>
    !s.isEmpty && s != ['.'] && s.getLast? != some ':').map Resolution.sanitize

/-- The class of a document without a path. -/
def anonymousClass : Text := "GeneratedDocument"

/-- The name of the class for a source: a component is named for its file, a page for its whole
    path. -/
def className (d : Source) (component : Bool) : Text :=
  match d.relativePath with
  | none => anonymousClass
  | some path =>
    let parts := classNameParts path
    if component then parts.getLast?.getD anonymousClass
    else List.intercalate ['_'] parts

/-- The line that tells a debugger which version of a source the code was generated from. -/
def checksumLine (d : Source) (a : HashAlgorithm) : Except Fault Text := do
  let guid ← a.guid
  let digest ← a.digest d.text
  let path := (d.path.getD []).flatMap fun c => if c == '\\' then ['\\', '\\'] else [c]
  return "#pragma checksum \"" ++ path ++ "\" \"" ++ guid ++ "\" \"" ++
    Text.toUpper (Digest.hexadecimal digest) ++ "\""

end RazorLang
