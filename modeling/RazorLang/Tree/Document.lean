import RazorLang.Grammar.Markup

/-!
# Parsed documents

A `ParsedDocument` is a source with its syntax tree and everything that is wrong with it. Main facts:

* every source has one: `ParsedDocument.parse` is total;
* its diagnostics are those of the grammar and those of the tokens, in the order of the source.
-/

namespace RazorLang

/-- A source with its syntax tree. -/
structure ParsedDocument where
  source : Source
  fileKind : FileKind
  root : Tree
  diagnostics : List Diagnostic

namespace ParsedDocument

/-- The reader at the start of a source. -/
def readerOf (d : Source) : Reader :=
  { tokenizer := Tokenizer.start .html d.path .start d.text, before := none, reported := [] }

/-- The diagnostics of a tree and of the grammar in the order of the source, each once. -/
def arrange (reported : List Diagnostic) (root : Tree) : List Diagnostic :=
  Diagnostic.dropRepeats
    ((reported ++ root.tokens.flatMap Token.diagnostics).mergeSort Diagnostic.spanLe)

/-- Reads a whole source as markup. -/
def parse (fileKind : FileKind) (d : Source) : ParsedDocument :=
  let place := Span.empty d.path .start
  let (trees, r) := Grammar.markup fileKind .document (readerOf d)
  let root := Tree.spanning .document [Tree.spanning .markupBlock trees place] place
  ⟨d, fileKind, root, arrange r.reported.reverse root⟩

/-- The labels that directives leave on the code below them, in the order of the source. -/
def chunks (p : ParsedDocument) : List (Tree × Label) :=
  p.root.descendants.filterMap fun t =>
    match t with
    | .node .statementCode _ (some label) _ =>
      match label with
      | .directive _ | .tagHelper _ => none
      | _ => some (t, label)
    | _ => none

/-- The directives in the order of the source. -/
def directives (p : ParsedDocument) : List (Tree × DirectiveUse) :=
  p.root.descendants.filterMap fun t => t.directive?.map fun use => (t, use)

/-- The first value of the last directive of a kind that has one. -/
def lastValue? (p : ParsedDocument) (d : Directive) : Option Text :=
  (p.directives.filterMap fun (_, use) =>
    if use.directive = d then use.firstText? else none).getLast?

end ParsedDocument

end RazorLang
