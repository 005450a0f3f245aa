import RazorLang.Configuration.Options
import RazorLang.Tree.Document

/-!
# Tag helpers in scope

Which tag helpers the elements of a document can be bound to. A page selects them with directives, its own
and those of its imports, and the last directive that matches decides; a component has those in scope
whose namespace it can see.

* `matchesPattern` — the names that a pattern of a directive stands for.
* `isInScope` — when one namespace can see another: one of them encloses the other.
* `namespaceOf?` — the namespace of a document, from its directives, its imports or its folders.
-/

namespace RazorLang

/-- The tag helpers that the elements of a document can be bound to. -/
structure TagHelperScope where
  /-- What element names start with to be bound at all. -/
  tagPrefix : Option Text := none
  helpers : List TagHelper := []
  deriving DecidableEq, Repr, Inhabited

/-- What is known about a document before its elements are bound. -/
structure Resolution where
  scope : TagHelperScope
  /-- The namespace of a component. -/
  space : Option Text
  diagnostics : List Diagnostic
  deriving DecidableEq, Repr, Inhabited

namespace Resolution

/-! ## Pages -/

/-- A pattern stands for the name it spells; with a star at its end, for all names that start so. -/
def matchesPattern (pattern name : Text) : Bool :=
  match Text.before? ['*'] pattern with
  | some lead => lead.isPrefixOf name
  | none => pattern == name

/-- A directive is about a tag helper. -/
def isAbout (text : LookupText) (h : TagHelper) : Bool :=
  match text.target with
  | some (pattern, assembly) => h.assembly == assembly && matchesPattern pattern h.name
  | none => false

/-- Whether a tag helper is selected after a label, given whether it was before. -/
def select (h : TagHelper) (selected : Bool) : Label → Bool
  | .addTagHelper text => selected || isAbout text h
  | .removeTagHelper text => selected && !isAbout text h
  | _ => selected

/-- The tag prefix after a label, given the one before; an invalid one changes nothing. -/
def nextTagPrefix (current : Option Text) : Label → Option Text
  | .tagPrefix value diagnostics =>
    if !diagnostics.isEmpty then current else if value.isEmpty then none else some value
  | _ => current

/-- What is wrong with the text of a label. -/
def labelDiagnostics : Label → List Diagnostic
  | .addTagHelper text | .removeTagHelper text => text.diagnostics
  | .tagPrefix _ diagnostics => diagnostics
  | _ => []

/-- The tag helpers in scope of a page, given the labels of its imports and its own in order. -/
def ofPage (labels : List Label) (known : List TagHelper) : Resolution :=
  { scope :=
      { tagPrefix := labels.foldl nextTagPrefix none
        helpers := known.filter fun h => labels.foldl (select h) false }
    space := none
    diagnostics := labels.flatMap labelDiagnostics }

/-! ## Namespaces -/

/-- A name made into an identifier: what an identifier cannot have becomes an underscore. -/
def sanitize (name : Text) : Text :=
  let body := name.map fun c => if Text.isLetter c || Text.isNumber c || c == '_' then c else '_'
  match name with
  | [] => []
  | c :: _ => if Text.isLetter c || c == '_' then body else '_' :: body

/-- One namespace encloses the other, or they are the same: at every dot the names agree. -/
def isInScope (a b : Text) : Bool :=
  let (shorter, longer) := if Text.size a ≤ Text.size b then (a, b) else (b, a)
  match Text.after? shorter longer with
  | none => false
  | some [] => true
  | some (c :: _) => c == '.'

/-- The folders of a source, outermost first, as identifiers. -/
def foldersOf (d : Source) : List Text :=
  match d.relativePath with
  | none => []
  | some path =>
    let parts := (Text.splitAll FileKind.isPathSeparator path).filter fun s =>
      !s.isEmpty && s != ['.']
    parts.dropLast.map sanitize

/-- A namespace extended by the names of folders. -/
def extend (space : Text) (folders : List Text) : Text :=
  space ++ folders.flatMap ('.' :: ·)

/-- The folders of a document below those of an import; none if it is not below them. -/
def foldersBelow (importFolders folders : List Text) : List Text :=
  if importFolders.isPrefixOf folders then folders.drop importFolders.length else []

/-- The namespace of a document: its own directive decides, then the innermost import that has one,
    then the root namespace; the latter two are extended by folders. -/
def namespaceOf? (document : ParsedDocument) (imports : List ParsedDocument) (root : Option Text) :
    Option Text :=
  let folders := foldersOf document.source
  let own := document.lastValue? .setNamespace
  let imported := imports.reverse.findSome? fun i =>
    (i.lastValue? .setNamespace).map fun space =>
      extend space (foldersBelow (foldersOf i.source) folders)
  let rooted := (root.filter (!·.isEmpty)).map (extend · folders)
  own.or (imported.or rooted)

/-! ## Components -/

/-- The report of a directive that a component cannot have. -/
def misplaced : Tree × Label → List Diagnostic
  | (t, .addTagHelper _) => [⟨.lookupInComponent Directive.addTagHelper.name, t.span⟩]
  | (t, .removeTagHelper _) => [⟨.lookupInComponent Directive.removeTagHelper.name, t.span⟩]
  | (t, .tagPrefix ..) => [⟨.tagPrefixInComponent Directive.tagHelperPrefix.name, t.span⟩]
  | _ => []

/-- The namespace that a label brings in as a whole. -/
def importedSpace? : Label → Option Text
  | .addImport space false none => some space
  | _ => none

/-- A component or its child content is in scope, given the namespace of the document and the
    namespaces brought in. -/
def isVisible (space : Option Text) (imported : List Text) (h : TagHelper) : Bool :=
  h.kind.isComponent && !h.isMangled &&
    (h.isFullyQualified || space.any (isInScope h.scopeNamespace) ||
      imported.contains h.scopeNamespace)

/-- The tag helpers in scope of a component, given its namespace and the chunks of its imports and its
    own in order. -/
def ofComponent (space : Option Text) (chunks : List (Tree × Label)) (known : List TagHelper) :
    Resolution :=
  let imported := chunks.filterMap fun (_, label) => importedSpace? label
  { scope := { helpers := known.filter (isVisible space imported) }
    space
    diagnostics := chunks.flatMap misplaced }

end Resolution

/-- The tag helpers in scope of a document with its imports, outermost first. -/
def resolve (document : ParsedDocument) (imports : List ParsedDocument) (known : List TagHelper)
    (o : Options) : Resolution :=
  let chunks := (imports ++ [document]).flatMap ParsedDocument.chunks
  if document.fileKind.isComponent then
    Resolution.ofComponent (Resolution.namespaceOf? document imports o.rootNamespace) chunks known
  else Resolution.ofPage (chunks.map Prod.snd) known

end RazorLang
