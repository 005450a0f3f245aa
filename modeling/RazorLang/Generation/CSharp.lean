import RazorLang.Generation.Body

/-!
# Generated C#

The class that a document becomes: a header with namespace, imports and base type; a method whose body is
what the document emits; and members from its directives. Every piece of the user's code is copied with
its span, so that the mappings of the result lead back to the source.
-/

namespace RazorLang

/-- A bound document with what its code is generated from. -/
structure PageModel where
  document : ParsedDocument
  imports : List ParsedDocument
  resolution : Resolution
  options : Options

namespace PageModel

/-- The document is a component. -/
def isComponent (m : PageModel) : Bool := m.document.fileKind.isComponent

/-- The directives of a kind in a parsed document. -/
def directivesOf (p : ParsedDocument) (d : Directive) : List DirectiveUse :=
  (p.directives.map Prod.snd).filter (·.directive = d)

/-- The first values of the document's directives of a kind. -/
def firstValues (m : PageModel) (d : Directive) : List DirectiveValue :=
  (directivesOf m.document d).filterMap (·.values.head?)

/-- The first value of the document's last directive of a kind. -/
def lastValue? (m : PageModel) (d : Directive) : Option DirectiveValue := (m.firstValues d).getLast?

/-! ## Header -/

/-- Copies a value of a directive. -/
def copyValue (v : DirectiveValue) : Print := .copy v.text v.span

/-- The namespace of pages. -/
def pageSpace : Text := "AspNetCoreGeneratedDocument"

/-- The namespace of components that have none. -/
def componentSpace : Text := "__GeneratedComponent"

/-- The namespace of a document without a directive for it. -/
def impliedSpace (m : PageModel) : Text :=
  if m.isComponent then m.resolution.space.getD componentSpace
  else (m.imports.reverse.findSome? (·.lastValue? .setNamespace)).getD pageSpace

/-- Opens the namespace. -/
def printNamespace (m : PageModel) : List Print :=
  (match m.lastValue? .setNamespace with
    | some v => [.write "namespace ", copyValue v, .line []]
    | none => [.line ("namespace " ++ m.impliedSpace)]) ++ [.line "\x7b", .indent]

/-- What every document imports. -/
def defaultImports (component : Bool) : List Text :=
  let shared : List Text :=
    ["System", "System.Collections.Generic", "System.Linq", "System.Threading.Tasks"]
  let own : List Text :=
    if component then ["Microsoft.AspNetCore.Components"]
    else ["Microsoft.AspNetCore.Mvc", "Microsoft.AspNetCore.Mvc.Rendering",
      "Microsoft.AspNetCore.Mvc.ViewFeatures"]
  shared ++ own

/-- The namespaces that the imports of a document bring in, each once and none of `seen`. -/
def inheritedImports (m : PageModel) (seen : List Text) : List Text :=
  let all := m.imports.flatMap fun i =>
    (directivesOf i .importNamespace).filterMap (·.firstText?)
  all.foldl (fun found t => if seen.contains t || found.contains t then found else found ++ [t]) []

/-- Imports of namespaces: what every document has, what its imports bring in, and its own. -/
def printImports (m : PageModel) : List Print :=
  let defaults := defaultImports m.isComponent
  (defaults ++ m.inheritedImports defaults).map (fun t => .line ("using " ++ t ++ ";")) ++
    (m.firstValues .importNamespace).flatMap fun v => [.write "using ", copyValue v, .line ";"]

/-- The type of the model of a page. -/
def printModel (m : PageModel) : Print :=
  match m.lastValue? .model with
  | some v => copyValue v
  | none => .write "dynamic"

/-- Opens the class of a component. -/
def printComponentClass (m : PageModel) (name : Text) : List Print :=
  ((m.firstValues .page).flatMap fun v =>
    [.write ("[" ++ componentsSpace ++ ".RouteAttribute("), copyValue v, .line ")]"]) ++
  (match m.lastValue? .layout with
    | some v =>
      [.write ("[" ++ componentsSpace ++ ".LayoutAttribute(typeof("), copyValue v, .line "))]"]
    | none => []) ++
  [.write ("public partial class " ++ name ++ " : "),
    match m.lastValue? .inherits with
    | some v => copyValue v
    | none => .write (componentsSpace ++ ".ComponentBase")] ++
  ((m.firstValues .implements).flatMap fun v => [.write ", ", copyValue v]) ++ [.line []]

/-- Opens the class of a page. -/
def printPageClass (m : PageModel) (name : Text) : List Print :=
  [.write ("public class " ++ name ++ " : ")] ++
  (match m.lastValue? .inherits with
    | some v => [copyValue v]
    | none =>
      if (directivesOf m.document .page).isEmpty then
        [.write "global::Microsoft.AspNetCore.Mvc.Razor.RazorPage<", m.printModel, .write ">"]
      else [.write "global::Microsoft.AspNetCore.Mvc.RazorPages.Page"]) ++ [.line []]

/-- Opens the class. -/
def printClass (m : PageModel) : List Print :=
  let name := className m.document.source m.isComponent
  (if m.isComponent then m.printComponentClass name else m.printPageClass name) ++
    [.line "\x7b", .indent]

/-! ## Body -/

/-- What the document emits. -/
def emissions (m : PageModel) : List Emission := m.document.root.emissions m.isComponent

/-- The method that the document becomes. -/
def printMethod (m : PageModel) : List Print :=
  let body := Emission.printAll ⟨m.isComponent, m.options.designTime⟩ {} m.emissions
  if m.isComponent then
    Print.openBlock ("protected override void BuildRenderTree(" ++ componentsSpace ++
      ".Rendering.RenderTreeBuilder __builder)") ++ body ++ Print.closeBlock
  else
    [.line "#pragma warning disable 1998"] ++
      Print.openBlock "public async override global::System.Threading.Tasks.Task ExecuteAsync()" ++
      body ++ Print.closeBlock ++ [.line "#pragma warning restore 1998"]

/-! ## Members -/

/-- The field that code for an editor assigns expressions to. -/
def printDesignTimeField (m : PageModel) : List Print :=
  if m.options.designTime then
    [.line "#pragma warning disable 0414", .line "private static object __o = null;",
      .line "#pragma warning restore 0414"]
  else []

/-- The attribute of a page's injected property. -/
def pageInjectAttribute : Text :=
  "[global::Microsoft.AspNetCore.Mvc.Razor.Internal.RazorInjectAttribute]"

/-- The attribute of an injected property. -/
def injectAttribute (m : PageModel) : Text :=
  if m.isComponent then "[" ++ componentsSpace ++ ".InjectAttribute]" else pageInjectAttribute

/-- How the accessors of an injected property end its declaration. -/
def injectTail (m : PageModel) : Text :=
  " \x7b get; " ++ (if m.isComponent then "" else "private " : Text) ++ "set; \x7d = default!;"

/-- Who sees an injected property. -/
def injectVisibility (m : PageModel) : Text := if m.isComponent then "private" else "public"

/-- The properties that directives inject: those of the imports, then the document's own. -/
def printInjections (m : PageModel) : List Print :=
  (m.imports.flatMap fun i => (directivesOf i .inject).flatMap fun use =>
    match use.values with
    | type :: member :: _ =>
      [.line m.injectAttribute,
        .line (m.injectVisibility ++ " " ++ type.text ++ " " ++ member.text ++ m.injectTail)]
    | _ => []) ++
  (directivesOf m.document .inject).flatMap fun use =>
    match use.values with
    | type :: member :: _ =>
      [.line m.injectAttribute, .write (m.injectVisibility ++ " "), copyValue type, .write " ",
        copyValue member, .line m.injectTail]
    | _ => []

/-- The services that every page has: type and name. -/
def pageServices (model : Text) : List (Text × Text) := [
  ("global::Microsoft.AspNetCore.Mvc.ViewFeatures.IModelExpressionProvider",
    "ModelExpressionProvider"),
  ("global::Microsoft.AspNetCore.Mvc.IUrlHelper", "Url"),
  ("global::Microsoft.AspNetCore.Mvc.IViewComponentHelper", "Component"),
  ("global::Microsoft.AspNetCore.Mvc.Rendering.IJsonHelper", "Json"),
  ("global::Microsoft.AspNetCore.Mvc.Rendering.IHtmlHelper<" ++ model ++ ">", "Html")]

/-- The properties for the services of a page. -/
def printServices (m : PageModel) : List Print :=
  if m.isComponent then []
  else
    let model : Text := ((m.lastValue? .model).map (·.text)).getD ("dynamic" : Text)
    (pageServices model).flatMap fun (type, name) =>
      [.line pageInjectAttribute,
        .line ("public " ++ type ++ " " ++ name ++ " \x7b get; private set; \x7d = default!;")]

/-- The first node of a kind right under a node. -/
def firstChild? (kind : NodeKind) (t : Tree) : Option Tree :=
  t.childNodes.find? (·.kind? == some kind)

/-- The block of members that a directive has. -/
def memberBlock? (t : Tree) : Option Tree := (firstChild? .directiveBody t).bind (firstChild? .codeBlock)

/-- The members that the document declares in blocks. -/
def printMembers (m : PageModel) : List Print :=
  let blocks := m.document.directives.filterMap fun (t, use) =>
    if use.directive = .code ∨ use.directive = .functions then memberBlock? t else none
  blocks.flatMap fun block =>
    (block.descendants.filter (·.kind? == some .statementCode)).flatMap fun t =>
      Emission.printCode t.text t.span

/-- The fields that tag helpers need. -/
def printHelperFields (m : PageModel) : List Print :=
  match Emission.helperTypes m.emissions with
  | [] => []
  | types =>
    [.line "#pragma warning disable 0649",
      .line ("private " ++ tagHelperRuntime ++
        ".TagHelperExecutionContext __tagHelperExecutionContext;"),
      .line "#pragma warning restore 0649",
      .line ("private " ++ tagHelperRuntime ++ ".TagHelperRunner __tagHelperRunner = new " ++
        tagHelperRuntime ++ ".TagHelperRunner();"),
      .line ("private " ++ tagHelperRuntime ++
        ".TagHelperScopeManager __tagHelperScopeManager = new " ++ tagHelperRuntime ++
        ".TagHelperScopeManager(StartTagHelperWritingScope, EndTagHelperWritingScope);")] ++
    types.map fun type => .line ("private global::" ++ type ++ " " ++ fieldName type ++ ";")

/-! ## The whole document -/

/-- Everything behind the checksum line. -/
def prints (m : PageModel) : List Print :=
  [.line "// <auto-generated/>", .line "#pragma warning disable 1591"] ++ m.printNamespace ++
    [.line "#line hidden"] ++ m.printImports ++ m.printClass ++ m.printMethod ++
    m.printDesignTimeField ++ m.printInjections ++ m.printServices ++ m.printMembers ++
    m.printHelperFields ++ Print.closeBlock ++ Print.closeBlock ++
    [.line "#pragma warning restore 1591"]

/-- The generated C#; fails only where a checksum is wanted that cannot be computed. -/
def toCSharp (m : PageModel) : Except Fault Generated := do
  let lead : List Print ←
    if m.options.suppressChecksum then pure []
    else do pure [.line (← checksumLine m.document.source m.options.checksum)]
  return Generated.ofPrints m.options (lead ++ m.prints)

end PageModel

end RazorLang
