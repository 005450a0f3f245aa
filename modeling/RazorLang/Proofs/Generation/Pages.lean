import Mathlib.Tactic.FinCases
import RazorLang.Proofs.Engine
import RazorLang.Proofs.Generation.Balance
import RazorLang.Proofs.Generation.Operations
import RazorLang.Proofs.TagHelper.Binding
import RazorLang.Proofs.Tree.Coverage

/-!
# Pages do what their documents say

Main statement: `Engine.operations_compileWhile` — the body of the method that a page is compiled to does what
the document says, read in its own order (`Tree.walk`): it writes the markup, with adjacent pieces joined,
writes the expressions, runs the statements that are not blank, and defines the sections. The route: a tree
emits what its walk yields (`Tree.Shaped.emits_walk`), joining emissions joins literals, and what is printed
is read back as what was emitted.
-/

namespace RazorLang

open RazorLang.Tree Text

/-! ## The walk of a document -/

/-- The name that a section is given. -/
def sectionName? : Option Label → Option Text
  | some (.directive use) => if use.directive = .defineSection then use.firstText? else none
  | _ => none

namespace Tree

mutual

/-- What a tree says in document order, given whether the node around it is markup. Of a section only the
    markup block counts, of other directives nothing. -/
def walk (isMarkup : Bool) : Tree → List PageOperation
  | .token t => if isMarkup then [.literal t.content] else []
  | .node kind _ label children =>
    match kind with
    | .markupEphemeral | .razorComment | .metaCode | .codeTransition => []
    | .expressionCode => [.expression (children.flatMap text)]
    | .statementCode => if label.isSome then [] else [.statement (children.flatMap text)]
    | .directive =>
      match sectionName? label with
      | some name => .sectionStart name :: walkAll false children ++ [.sectionEnd]
      | none => []
    | .directiveBody => walkBlock children
    | kind => walkAll kind.isMarkup children

/-- What some trees say one behind the other. -/
def walkAll (isMarkup : Bool) : List Tree → List PageOperation
  | [] => []
  | t :: rest => walk isMarkup t ++ walkAll isMarkup rest

/-- What the first markup block among some trees says. -/
def walkBlock : List Tree → List PageOperation
  | [] => []
  | t :: rest => if t.kind? == some .markupBlock then walk false t else walkBlock rest

end

theorem walkAll_cons (isMarkup : Bool) (t : Tree) (trees : List Tree) :
    walkAll isMarkup (t :: trees) = walk isMarkup t ++ walkAll isMarkup trees := rfl

theorem walkBlock_cons (t : Tree) (trees : List Tree) :
    walkBlock (t :: trees) =
      if t.kind? == some .markupBlock then walk false t else walkBlock trees := rfl

theorem walkAll_eq (isMarkup : Bool) (trees : List Tree) :
    walkAll isMarkup trees = trees.flatMap (walk isMarkup) := by
  induction trees with
  | nil => rfl
  | cons t trees ih => rw [walkAll_cons, ih, List.flatMap_cons]

/-! ## What a page emits -/

/-- Without components, a tree emits what its walk yields. -/
def Emits (t : Tree) : Prop :=
  ∀ isMarkup, (Emitted.ofTree false isMarkup t).whole.map Emission.operation? =
    (t.walk isMarkup).map some

variable {trees : List Tree}

/-- Trees that emit what their walks yield do so one behind the other. -/
theorem emits_all (h : ∀ t ∈ trees, Emits t) (isMarkup : Bool) :
    ((Emitted.ofTrees false isMarkup trees).flatMap (·.2.whole)).map Emission.operation? =
      (walkAll isMarkup trees).map some := by
  rw [Emitted.ofTrees_eq]
  induction trees with
  | nil => rfl
  | cons t trees ih =>
      rw [List.forall_mem_cons] at h
      rw [List.map_cons, List.flatMap_cons, List.map_append, h.1 isMarkup, ih h.2,
        walkAll_cons, List.map_append]

/-- The kinds of nodes that neither generation nor the walk treats in a way of its own. -/
def plainKinds : List NodeKind := [
  .document, .markupBlock, .markupText, .element, .startTag, .endTag, .codeBlock, .statement,
  .statementBody]

/-- The kinds of nodes that are skipped. -/
def skippedKinds : List NodeKind := [.markupEphemeral, .razorComment, .metaCode, .codeTransition]

theorem emits_node {kind : NodeKind} (hkind : kind ∈ plainKinds)
    (h : ∀ t ∈ trees, Emits t) (span : Span) : Emits (.node kind span none trees) := by
  intro isMarkup
  have hall := emits_all h kind.isMarkup
  rw [Emitted.ofTree]
  fin_cases hkind
  all_goals exact hall

theorem emits_skipped {kind : NodeKind} (hkind : kind ∈ skippedKinds) (span : Span)
    (label : Option Label) (trees : List Tree) :
    Emits (.node kind span label trees) := by
  intro isMarkup
  rw [Emitted.ofTree]
  fin_cases hkind
  all_goals rfl

theorem emits_token (t : Token) : Emits (.token t) := by
  intro isMarkup
  rw [Emitted.ofTree, Emitted.ofToken]
  cases isMarkup with
  | true => rfl
  | false => rfl

theorem emits_tokens (ts : List Token) : ∀ t ∈ ts.map token, Emits t := by
  intro t ht
  obtain ⟨u, -, rfl⟩ := List.mem_map.mp ht
  exact emits_token u

/-- What trees spell does not depend on what comes with them. -/
theorem flatMap_text_ofTrees (isMarkup : Bool) (trees : List Tree) :
    ((Emitted.ofTrees false isMarkup trees).flatMap fun x => x.1.text) = trees.flatMap text := by
  rw [Emitted.ofTrees_eq, List.flatMap_map]

/-- A piece of code is a statement, unless it has a label. -/
theorem emits_code (span : Span) (label : Option Label) (trees : List Tree) :
    Emits (.node .statementCode span label trees) := by
  intro isMarkup
  have htext := flatMap_text_ofTrees NodeKind.statementCode.isMarkup trees
  rw [Emitted.ofTree]
  cases label with
  | some label => rfl
  | none =>
      show [some (PageOperation.statement _)] = [some (PageOperation.statement _)]
      rw [htext]

theorem walk_of_isMark {t : Tree} (h : t.IsMark) (isMarkup : Bool) : t.walk isMarkup = [] := by
  obtain ⟨kind, ts, place, hkind, rfl⟩ := h
  rcases hkind with rfl | rfl
  · rfl
  · rfl

/-- An expression emits its piece of code, which nothing but syntax stands around. -/
theorem whole_expression (component isMarkup : Bool) {kind : NodeKind}
    (hkind : kind = .implicitExpression ∨ kind = .explicitExpression) {before after : List Tree}
    (marks : ∀ t ∈ before ++ after, t.IsMark) (ts : List Token) (place span : Span)
    (label : Option Label) :
    (Emitted.ofTree component isMarkup
      (.node kind span label (before ++ overTokens .expressionCode ts place :: after))).whole =
      [.expression (overTokens .expressionCode ts place).text
        (overTokens .expressionCode ts place).span] := by
  have hbefore : before.find? (fun t => t.kind? == some .expressionCode) = none := by
    rw [List.find?_eq_none]
    intro t ht
    obtain ⟨kind, us, place, hkind, rfl⟩ := marks t (List.mem_append_left after ht)
    rcases hkind with rfl | rfl
    · exact Bool.false_ne_true
    · exact Bool.false_ne_true
  have hfind : (Emitted.ofTrees component false
      (before ++ overTokens .expressionCode ts place :: after)).find?
        (fun x => x.1.kind? == some .expressionCode) =
      some (overTokens .expressionCode ts place,
        Emitted.ofTree component false (overTokens .expressionCode ts place)) := by
    rw [Emitted.ofTrees_eq, List.find?_map]
    show ((before ++ overTokens .expressionCode ts place :: after).find?
      (fun t => t.kind? == some .expressionCode)).map _ = _
    rw [List.find?_append, hbefore, Option.none_or, List.find?_cons_of_pos rfl]
    rfl
  rw [Emitted.ofTree]
  rcases hkind with rfl | rfl
  all_goals
    rw [Emitted.ofNode]
    dsimp only [NodeKind.isMarkup]
    rw [hfind]

/-- An expression walks to its piece of code, as it emits it. -/
theorem emits_expression {kind : NodeKind}
    (hkind : kind = .implicitExpression ∨ kind = .explicitExpression) {before after : List Tree}
    (marks : ∀ t ∈ before ++ after, t.IsMark) (ts : List Token) (place span : Span) :
    Emits (.node kind span none (before ++ overTokens .expressionCode ts place :: after)) := by
  intro isMarkup
  have hnone {trees : List Tree} (h : ∀ t ∈ trees, t.IsMark) : walkAll false trees = [] := by
    rw [walkAll_eq, List.flatMap_eq_nil_iff]
    exact fun t ht => walk_of_isMark (h t ht) false
  have hcode : (overTokens .expressionCode ts place).walk false =
      [.expression (overTokens .expressionCode ts place).text] := by
    rw [overTokens, spanning, text_node]
    rfl
  have hwalk : walkAll false (before ++ overTokens .expressionCode ts place :: after) =
      [.expression (overTokens .expressionCode ts place).text] := by
    have hbefore := hnone fun t ht => marks t (List.mem_append_left after ht)
    have hafter := hnone fun t ht => marks t (List.mem_append_right before ht)
    rw [walkAll_eq] at hbefore hafter ⊢
    rw [List.flatMap_append, List.flatMap_cons, hbefore, hafter, hcode]
    rfl
  rw [whole_expression false isMarkup hkind marks]
  rcases hkind with rfl | rfl
  all_goals
    show _ = (walkAll false _).map some
    rw [hwalk]
    rfl

/-- The body of a directive emits its markup block. -/
theorem emits_directiveBody (h : ∀ t ∈ trees, Emits t) (span : Span) :
    Emits (.node .directiveBody span none trees) := by
  intro isMarkup
  rw [Emitted.ofTree, Emitted.ofNode]
  dsimp only [NodeKind.isMarkup]
  rw [Emitted.ofTrees_eq]
  show _ = (walkBlock trees).map some
  induction trees with
  | nil => rfl
  | cons t trees ih =>
      rw [List.forall_mem_cons] at h
      rw [walkBlock_cons, List.map_cons, List.find?_cons]
      dsimp only
      cases hkind : t.kind? == some .markupBlock with
      | true => exact h.1 false
      | false => exact ih h.2

/-- A section emits what is in it between its two ends, and any other directive emits nothing. -/
theorem emits_directive (h : ∀ t ∈ trees, Emits t) (use : DirectiveUse) (span : Span) :
    Emits (.node .directive span (some (.directive use)) trees) := by
  intro isMarkup
  have hall := emits_all h false
  have hname : sectionName? (some (.directive use)) =
      if use.directive = .defineSection then use.firstText? else none := rfl
  rw [Emitted.ofTree, walk, hname]
  show (Emitted.ofDirective false use
    ((Emitted.ofTrees false false trees).flatMap (·.2.whole))).map _ = _
  rw [Emitted.ofDirective]
  cases hfirst : use.firstText? with
  | none => by_cases hsection : use.directive = .defineSection <;> simp [hsection]
  | some name =>
      by_cases hsection : use.directive = .defineSection
      · simp [hsection, hall, Emission.operation?]
      · simp [hsection]

end Tree

namespace NodeKind

theorem isLeaf_cases {kind : NodeKind} (h : kind.isLeaf = true) :
    kind ∈ plainKinds ∨ kind ∈ skippedKinds := by
  revert h
  cases kind <;> decide

theorem isBranch_cases {kind : NodeKind} (h : kind.isBranch = true) :
    kind ∈ plainKinds ∨ kind ∈ skippedKinds ∨ kind = .directiveBody := by
  revert h
  cases kind <;> decide

end NodeKind

/-- A tree that the grammar builds emits what its walk yields. -/
theorem Tree.Shaped.emits_walk {t : Tree} (h : t.Shaped) : t.Emits := by
  induction h with
  | token t => exact emits_token t
  | leaf hleaf ts place =>
      rcases NodeKind.isLeaf_cases hleaf with hkind | hkind
      · exact emits_node hkind (emits_tokens ts) _
      · exact emits_skipped hkind _ _ _
  | code ts place plain => exact emits_code _ _ _
  | expression hkind before after marks ts place place' =>
      exact emits_expression hkind marks ts place _
  | branch hbranch parts place ih =>
      rcases NodeKind.isBranch_cases hbranch with hkind | hkind | rfl
      · exact emits_node hkind ih _
      · exact emits_skipped hkind _ _ _
      · exact emits_directiveBody ih _
  | directive parts values place ih => exact emits_directive ih _ _

/-- A page without tag helpers emits what the walk of its tree yields, with adjacent literals joined. -/
theorem Tree.Shaped.emissions {root : Tree} (h : root.Shaped) :
    (root.emissions false).map Emission.operation? =
      (PageOperation.joinLiterals (root.walk false)).map some :=
  Emission.map_operation_joinMarkup (h.emits_walk false)

/-! ## The method of a page -/

/-- The header of the method that a page is compiled to. -/
def executeHeader : Text :=
  "public async override global::System.Threading.Tasks.Task ExecuteAsync()"

namespace Engine

variable {e : Engine} {mayGoOn : Phase → Bool} {r : Request} {c : Compilation}

/-- Without tag helpers none is in scope of a page, so that its document is the one that is parsed. -/
theorem document_modelOf (hkind : r.fileKind = .legacy) (hhelpers : e.tagHelpers = []) :
    (e.modelOf r).document = ParsedDocument.parse .legacy r.source := by
  have hscope : (e.modelOf r).resolution.scope.helpers = [] := by
    have hpage : (ParsedDocument.parse r.fileKind r.source).fileKind.isComponent = false := by
      rw [hkind]
      rfl
    show (resolve _ _ e.tagHelpers _).scope.helpers = []
    unfold resolve
    rw [hhelpers, hpage]
    rfl
  show (ParsedDocument.parse r.fileKind r.source).bind (e.modelOf r).resolution.scope = _
  unfold ParsedDocument.bind
  rw [TagHelperScope.bindTree_eq_self hscope, hkind]

/-- The body of the method that a page without tag helpers is compiled to does what the document says in
    its own order, with adjacent literals joined and without code that is blank. -/
theorem operations_compileWhile (h : e.compileWhile mayGoOn r = .ok c)
    (hkind : r.fileKind = .legacy) (hhelpers : e.tagHelpers = [])
    (hdesign : e.options.designTime = false) :
    ∃ (lead : List Text) (before body after : List Print),
      c.csharp = Generated.ofPrints (e.optionsFor r) (lead.map .line ++ (e.modelOf r).prints) ∧
      (e.modelOf r).prints =
        before ++ Print.openBlock executeHeader ++ body ++ Print.closeBlock ++ after ∧
      readOperations body = some (PageOperation.dropBlankCode (PageOperation.joinLiterals
        ((ParsedDocument.parse .legacy r.source).root.walk false))) := by
  obtain ⟨-, hcsharp, -⟩ := compileWhile_eq_ok h
  obtain ⟨lead, hprints⟩ := PageModel.toCSharp_eq_ok hcsharp
  have hdocument := document_modelOf hkind hhelpers
  have hcomponent : (e.modelOf r).isComponent = false := by
    rw [PageModel.isComponent, hdocument]
    rfl
  obtain ⟨-, hparsed, -⟩ := ParsedDocument.parse_run .legacy r.source
  have hbody := Emission.readOperations_printAll hparsed.emissions {}
  have hmethod : (e.modelOf r).printMethod = [.line "#pragma warning disable 1998"] ++
      Print.openBlock executeHeader ++
      Emission.printAll Emission.pageKind {}
        ((ParsedDocument.parse .legacy r.source).root.emissions false) ++
      Print.closeBlock ++ [.line "#pragma warning restore 1998"] := by
    have hkind : (⟨(e.modelOf r).isComponent, (e.modelOf r).options.designTime⟩ : BodyKind) =
        Emission.pageKind := by
      rw [hcomponent]
      exact congrArg (BodyKind.mk false) hdesign
    unfold PageModel.printMethod PageModel.emissions
    rw [hkind, hcomponent, hdocument]
    rfl
  generalize hp : e.modelOf r = p at hprints hmethod
  refine ⟨lead, [.line "// <auto-generated/>", .line "#pragma warning disable 1591"] ++
      p.printNamespace ++ [.line "#line hidden"] ++ p.printImports ++ p.printClass ++
      [.line "#pragma warning disable 1998"], _, [.line "#pragma warning restore 1998"] ++
      p.printDesignTimeField ++ p.printInjections ++ p.printServices ++ p.printMembers ++
      p.printHelperFields ++ Print.closeBlock ++ Print.closeBlock ++
      [.line "#pragma warning restore 1591"], ?_, ?_, hbody⟩
  · rw [hprints, ← hp]
    rfl
  · rw [PageModel.prints, hmethod]
    simp only [List.append_assoc]

/-- A paragraph with an expression is written in three pieces. -/
theorem operations_compileWhile_paragraph :
    ∃ c, bare.compileWhile (fun _ => true) ⟨.anonymous "<p>@x</p>", .legacy, []⟩ = .ok c ∧
      ∃ (lead : List Text) (before body after : List Print),
        c.csharp = Generated.ofPrints (bare.optionsFor ⟨.anonymous "<p>@x</p>", .legacy, []⟩)
          (lead.map .line ++ (bare.modelOf ⟨.anonymous "<p>@x</p>", .legacy, []⟩).prints) ∧
        (bare.modelOf ⟨.anonymous "<p>@x</p>", .legacy, []⟩).prints =
          before ++ Print.openBlock executeHeader ++ body ++ Print.closeBlock ++ after ∧
        readOperations body = some [.literal "<p>", .expression "x", .literal "</p>"] := by
  obtain ⟨c, hc⟩ : ∃ c, bare.compileWhile (fun _ => true)
    ⟨.anonymous "<p>@x</p>", .legacy, []⟩ = .ok c := ⟨_, rfl⟩
  obtain ⟨lead, before, body, after, hcode, hprints, hbody⟩ :=
    operations_compileWhile hc rfl rfl rfl
  have hwalk : PageOperation.dropBlankCode (PageOperation.joinLiterals
      ((ParsedDocument.parse .legacy (.anonymous "<p>@x</p>")).root.walk false)) =
      [.literal "<p>", .expression "x", .literal "</p>"] := by
    decide +kernel
  exact ⟨c, hc, lead, before, body, after, hcode, hprints, hbody.trans (congrArg some hwalk)⟩

end Engine

end RazorLang
