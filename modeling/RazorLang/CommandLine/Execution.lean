import RazorLang.CommandLine.Invocation
import RazorLang.Editor.Projection
import RazorLang.Json.Reader
import RazorLang.TagHelper.Record
import RazorLang.Token.Record

/-!
# Carrying out a command

A command reads files and prepares a `Response`: a text, where it goes, and what is reported once the text is
there. Reading and writing are left to the caller: `run` is given what files say, and `Response.conclude`
whether the text could be written.
-/

namespace RazorLang.CommandLine

/-- Why a command fails. -/
inductive CommandFault where
  /-- A file cannot be read or written. -/
  | file (path reason : Text)
  /-- A file with tag helpers says something else. -/
  | notTagHelpers
  | engine (fault : Fault)
  /-- The document has errors. -/
  | errors (path : Text) (count : Nat)
  /-- The document does not have a position. -/
  | outside (position : Position) (path : Text)
  deriving DecidableEq, Repr

/-- A position in a message. -/
def renderPosition (p : Position) : Text := Text.ofNat p.line ++ ":" ++ Text.ofNat p.units

/-- The wording of a fault. -/
def CommandFault.message : CommandFault → Text
  | file path reason => "I/O error for '" ++ path ++ "': " ++ reason
  | notTagHelpers => "JSON error: not a list of tag helper descriptors"
  | engine fault => fault.render
  | errors path count => path ++ ": " ++ Text.ofNat count ++ " error(s)"
  | outside position path =>
    "Invalid input: position " ++ renderPosition position ++ " is outside " ++ path

/-- What a command brings about. -/
structure Response where
  text : Text
  /-- The file that the text goes to; if there is none, it is printed. -/
  target : Option Text := none
  /-- What is reported once the text is written. -/
  reports : List Diagnostic := []
  /-- How the command fails in spite of its text. -/
  failure : Option CommandFault := none
  deriving DecidableEq, Repr

namespace Response

/-- The reports of a response, one a line. -/
def reportText (r : Response) : Text := r.reports.flatMap fun d => d.render ++ "\n"

/-- What is reported, and how the command fails, now that its text is written or not. -/
def conclude (r : Response) (written : Except Text Unit) : Text × Option CommandFault :=
  match written with
  | .ok () => (r.reportText, r.failure)
  | .error reason => ([], some (.file (r.target.getD "<stdout>") reason))

end Response

/-- What files say, or why they cannot be read. -/
abbrev Files := Text → Except Text Text

/-- Reads a file. -/
def readFile (files : Files) (path : Text) : Except CommandFault Text :=
  (files path).mapError (.file path)

/-- Reads the tag helpers of a project. -/
def readTagHelpers (files : Files) (path : Text) : Except CommandFault (List TagHelper) := do
  let text ← readFile files path
  match (Json.parse? text).bind TagHelper.listOfJson? with
  | some helpers => return helpers
  | none => throw .notTagHelpers

/-- Compiles a file. -/
def compile (files : Files) (path : Text) (s : Settings) : Except CommandFault Compilation := do
  let text ← readFile files path
  let tagHelpers ← match s.tagHelpers with
    | some t => readTagHelpers files t
    | none => pure []
  let options ← s.options.mapError .engine
  let engine ← (Engine.new options tagHelpers).mapError .engine
  let imports ← s.imports.mapM fun i => do return Source.ofFile (← readFile files i) i
  let request : Request := { source := .ofFile text path, fileKind := .ofPath path, imports }
  (engine.compile request).mapError .engine

/-- A text made from a document, with everything that is wrong with the document. -/
def respond (path : Text) (c : Compilation) (text : Text) (target : Option Text) : Response :=
  let count := (c.diagnostics.filter Diagnostic.isError).length
  { text, target, reports := c.diagnostics
    failure := if count = 0 then none else some (.errors path count) }

/-- A line of a list of tokens. -/
def renderToken (t : Token) : Text :=
  t.kind.name ++ " " ++ Text.quoted t.content ++ " [" ++ Text.ofNat t.span.start.offset ++ ".." ++
    Text.ofNat t.span.stop ++ ")\n"

/-- Lists tokens. -/
def renderTokens (json : Bool) (ts : List Token) : Text :=
  if json then Json.pretty 0 (.array (ts.map Token.toJson)) ++ "\n" else ts.flatMap renderToken

/-- Tells the language of a position of a document, and where it is in the generated C#. -/
def locate (path : Text) (c : Compilation) (position : Position) : Except CommandFault Text :=
  match c.buffer.index? position with
  | none => .error (.outside position path)
  | some i =>
    let place :=
      match c.csharpProjection.generatedPosition? c.buffer position .strict with
      | some p => renderPosition p
      | none => "unmapped"
    .ok ("language: " ++ (c.document.root.languageAt i).name ++ "\ncsharp: " ++ place ++ "\n")

/-- Carries out a command up to the writing of its text. -/
def Invocation.run (files : Files) : Invocation → Except CommandFault Response
  | generate language path output settings => do
    let c ← compile files path settings
    let generated := match language with
      | .csharp => c.csharp
      | .html => c.html
    return respond path c generated.code output
  | tokens path language json => do
    let source := Source.ofFile (← readFile files path) path
    return { text := renderTokens json (Tokenizer.ofSource language source 0).tokens }
  | tree path settings => do
    let c ← compile files path settings
    return respond path c (c.document.root.outline 0) none
  | map path position settings => do
    return { text := ← locate path (← compile files path settings) position }

end RazorLang.CommandLine
