import RazorLang.Generation.CSharp
import RazorLang.Generation.Html

/-!
# The engine

An `Engine` has valid options and the tag helpers of a project. It compiles a source with its imports to a
`Compilation`: parse, find the tag helpers in scope, bind the elements, generate C#, generate HTML. Before
each of the five phases it asks whether to go on; a request is called off at the first phase for which the
answer is no.
-/

namespace RazorLang

/-- The options of a project and the tag helpers that it knows. -/
structure Engine where
  options : Options
  tagHelpers : List TagHelper := []
  deriving DecidableEq

/-- A source with the sources whose directives hold for it too, outermost first. -/
structure Request where
  source : Source
  fileKind : FileKind
  imports : List Source := []
  deriving DecidableEq

/-- Everything that is generated for a source. -/
structure Compilation where
  request : Request
  /-- The document with its elements bound. -/
  document : ParsedDocument
  imports : List ParsedDocument
  resolution : Resolution
  csharp : Generated
  html : Generated

namespace Engine

/-- The engine with the given options, if they are valid. -/
def new (o : Options) (tagHelpers : List TagHelper := []) : Except Fault Engine := do
  o.validate
  return ⟨o, tagHelpers⟩

/-- The phases of a compilation. -/
inductive Phase where
  | parse
  | resolve
  | bind
  | generateCSharp
  | generateHtml
  deriving DecidableEq, Repr

/-- How often the engine has asked whether to go on once it is in a phase. -/
def Phase.checks : Phase → Nat
  | parse => 1
  | resolve => 2
  | bind => 3
  | generateCSharp => 4
  | generateHtml => 5

/-- A fault and the phase in which it came up, if there was one by then. -/
structure Failure where
  fault : Fault
  phase : Option Phase
  deriving DecidableEq, Repr

/-- How often the engine has asked whether to go on before a failure. -/
def Failure.checks (f : Failure) : Nat := (f.phase.map Phase.checks).getD 0

/-- Notes the phase in which a fault comes up. -/
def during {α : Type} (phase : Option Phase) (x : Except Fault α) : Except Failure α :=
  x.mapError (⟨·, phase⟩)

/-- Goes on into a phase, unless the request is called off by then. -/
def enter (mayGoOn : Phase → Bool) (p : Phase) : Except Failure Unit :=
  if mayGoOn p then .ok () else .error ⟨.cancelled, some p⟩

/-- Compiles a request, asking before each phase whether to go on. -/
def compileWhile (e : Engine) (mayGoOn : Phase → Bool) (r : Request) :
    Except Failure Compilation := do
  let options := { e.options with fileKind := r.fileKind }
  during none options.validate
  enter mayGoOn .parse
  let parsed := ParsedDocument.parse r.fileKind r.source
  let imports := r.imports.map (ParsedDocument.parse (FileKind.ofImports r.fileKind))
  enter mayGoOn .resolve
  let resolution := RazorLang.resolve parsed imports e.tagHelpers options
  enter mayGoOn .bind
  let document := parsed.bind resolution.scope
  enter mayGoOn .generateCSharp
  let csharp ← during (some .generateCSharp)
    (PageModel.toCSharp { document, imports, resolution, options })
  enter mayGoOn .generateHtml
  return { request := r, document, imports, resolution, csharp, html := document.toHtml }

/-- Compiles a request. -/
def compile (e : Engine) (r : Request) : Except Fault Compilation :=
  (e.compileWhile (fun _ => true) r).mapError (·.fault)

end Engine

namespace Compilation

/-- Everything that is wrong with a document and its imports, in the order of the sources, each
    once. -/
def diagnostics (c : Compilation) : List Diagnostic :=
  Diagnostic.dropRepeats <|
    (c.document.diagnostics ++ c.imports.flatMap (·.diagnostics) ++
      c.resolution.diagnostics).mergeSort Diagnostic.le

end Compilation

/-- A request, before or after it is compiled. -/
inductive CodeDocument where
  | pending (r : Request)
  | compiled (c : Compilation)

namespace CodeDocument

/-- The compilation, or else the report that one of its products is missing. -/
def demand {α : Type} (product : Product) (get : Compilation → α) :
    CodeDocument → Except Fault α
  | pending _ => .error (.notProduced product)
  | compiled c => .ok (get c)

/-- The bound document. -/
def document (d : CodeDocument) : Except Fault ParsedDocument := d.demand .syntaxTree (·.document)

/-- The tag helpers in scope. -/
def scope (d : CodeDocument) : Except Fault TagHelperScope :=
  d.demand .tagHelperContext (·.resolution.scope)

/-- The generated C#. -/
def csharp (d : CodeDocument) : Except Fault Generated := d.demand .csharpDocument (·.csharp)

/-- The HTML projection. -/
def html (d : CodeDocument) : Except Fault Generated := d.demand .htmlDocument (·.html)

/-- The namespace of a component, once it is known. -/
def space : CodeDocument → Option Text
  | pending _ => none
  | compiled c => c.resolution.space

/-- What is known to be wrong with the document. -/
def diagnostics : CodeDocument → List Diagnostic
  | pending _ => []
  | compiled c => c.diagnostics

end CodeDocument

end RazorLang
