import RazorLang.Proofs.Generation.Showing
import RazorLang.Proofs.TagHelper.Binding
import RazorLang.Proofs.Tree.Coverage

/-!
# Which expressions reach the generated code

Main statement: `Engine.exists_mapping_of_expression` — every expression of a document that is not blank and
not left out (`Tree.leftOut`) lies within a piece of the source that is mapped. The route: the trees that the
grammar builds show their expressions when they are bound (`Tree.Shaped.shows`, by induction on how they are
built), and what is shown is mapped (`Engine.exists_mapping_of_shown`).
-/

namespace RazorLang

open RazorLang.Tree

/-! ## Bound trees -/

theorem Tree.expressions_overTokens {kind : NodeKind} (hkind : kind ≠ .expressionCode)
    (ts : List Token) (place : Span) (label : Option Label) :
    (spanning kind (ts.map .token) place label).expressions = [] := by
  rw [List.eq_nil_iff_forall_not_mem]
  intro n hn
  obtain ⟨t, ht, hn⟩ := (mem_expressions_node hkind).mp hn
  obtain ⟨u, -, rfl⟩ := List.mem_map.mp ht
  rw [expressions_token] at hn
  exact List.not_mem_nil hn

/-- There is no expression in the end tags that the grammar builds. -/
theorem Tree.Shaped.expressions_endTag {c : TagHelperScope} {t : Tree} (h : t.Shaped)
    (hkind : t.kind? = some .endTag) (parent : Option Text) :
    (c.bindTree parent t).expressions = [] := by
  have hne {kind : NodeKind} (hne : kind ≠ .endTag) (hkind : some kind = some .endTag) :
      (c.bindTree parent t).expressions = [] := absurd (Option.some.inj hkind) hne
  cases h with
  | token t => exact absurd hkind (by simp [kind?])
  | leaf hleaf ts place =>
      obtain rfl := Option.some.inj hkind
      rw [overTokens, TagHelperScope.bindTree_overTokens (by decide)]
      exact expressions_overTokens (by decide) _ _ _
  | code ts place plain => exact hne (by decide) hkind
  | expression hexpression before after marks ts place place' =>
      exact hne (by rcases hexpression with rfl | rfl <;> decide) hkind
  | branch hbranch parts place =>
      refine hne ?_ hkind
      rintro rfl
      exact absurd hbranch Bool.false_ne_true
  | directive parts values place => exact hne (by decide) hkind

namespace Emitted

variable {c : TagHelperScope} {component : Bool} {n : Tree} {trees : List Tree}

theorem endTagsPlain_ofTrees (component isMarkup : Bool) (h : ∀ t ∈ trees, t.Shaped) (parent : Option Text) :
    EndTagsPlain (ofTrees component isMarkup (trees.map (c.bindTree parent))) := by
  rw [ofTrees_eq, List.map_map]
  intro x hx hkind
  obtain ⟨t, ht, rfl⟩ := List.mem_map.mp hx
  exact (h t ht).expressions_endTag (TagHelperScope.kind_bindTree hkind (by decide)) parent

/-- A bound node shows its expressions if the trees under it do when they are bound, and its construct
    hands on what they show. -/
theorem shows_bindTree_node {kind : NodeKind} {span : Span} {label : Option Label}
    (hparsed : ∀ t ∈ trees, t.Shaped)
    (htrees : ∀ t ∈ trees, ∀ parent isMarkup,
      Shows component n (c.bindTree parent t, ofTree component isMarkup (c.bindTree parent t)))
    (hnode : ∀ kind' label' children,
      ((kind' = kind ∧ label' = label) ∨
        (kind = .element ∧ kind' = .tagHelperElement ∧ ∃ b, label' = some (.tagHelper b))) →
      (∀ x ∈ children, Shows component n x) → EndTagsPlain children →
      Shows component n (node kind' span label' (children.map Prod.fst),
        ofNode component kind' span label' children))
    (parent : Option Text) (isMarkup : Bool) :
    Shows component n (c.bindTree parent (.node kind span label trees),
      ofTree component isMarkup (c.bindTree parent (.node kind span label trees))) := by
  obtain ⟨kind', label', parent', hbind, hcases⟩ :=
    TagHelperScope.bindTree_node c parent kind span label trees
  have hchildren : ∀ x ∈ ofTrees component kind'.isMarkup (trees.map (c.bindTree parent')),
      Shows component n x := by
    rw [ofTrees_eq, List.map_map]
    intro x hx
    obtain ⟨t, ht, rfl⟩ := List.mem_map.mp hx
    exact htrees t ht parent' _
  have hfst : (ofTrees component kind'.isMarkup (trees.map (c.bindTree parent'))).map Prod.fst =
      trees.map (c.bindTree parent') := by
    rw [ofTrees_eq, List.map_map]
    exact List.map_id _
  have hshows := hnode kind' label' _ hcases hchildren
    (endTagsPlain_ofTrees component kind'.isMarkup hparsed parent')
  rw [hfst] at hshows
  rw [hbind, ofTree]
  exact hshows

end Emitted

/-- The piece of code in an expression is the only expression in it. -/
theorem Tree.eq_of_mem_expressions {kind : NodeKind} (hkind : kind ≠ .expressionCode)
    {before after : List Tree} (marks : ∀ t ∈ before ++ after, t.IsMark) {ts : List Token}
    {place span : Span} {label : Option Label} {n : Tree}
    (h : n ∈ (node kind span label
      (before ++ overTokens .expressionCode ts place :: after)).expressions) :
    n = overTokens .expressionCode ts place := by
  obtain ⟨t, ht, hn⟩ := (mem_expressions_node hkind).mp h
  rcases eq_or_isMark marks ht with rfl | ⟨kind, us, place, hmark, rfl⟩
  · exact mem_nodes_overTokens (List.mem_filter.mp hn).1
  · rw [overTokens, expressions_overTokens (by rcases hmark with rfl | rfl <;> decide)] at hn
    exact absurd hn List.not_mem_nil

/-- A piece of code that is not blank covers itself where it is emitted as an expression. -/
theorem Emission.cover_expression {n : Tree} (hblank : Text.isBlank n.text = false) :
    Cover [expression n.text n.span] n := by
  refine ⟨_, List.mem_singleton_self _, (n.text, n.span), ?_, fun hnil => ?_, Span.Within.refl _⟩
  · rw [shown, hblank]
    exact List.mem_singleton_self _
  · rw [show n.text = [] from hnil] at hblank
    exact Bool.false_ne_true hblank.symm

/-- A bound tree shows the expressions that it does not leave out. -/
theorem Tree.Shaped.shows {c : TagHelperScope} {component : Bool} {n t : Tree}
    (hblank : Text.isBlank n.text = false) (h : t.Shaped) (parent : Option Text) (isMarkup : Bool) :
    Emitted.Shows component n
      (c.bindTree parent t, Emitted.ofTree component isMarkup (c.bindTree parent t)) := by
  -- Binding goes down with the name of the element around a tree, so that name is not fixed.
  induction h generalizing parent isMarkup with
  | token t =>
      rw [TagHelperScope.bindTree]
      exact Emitted.shows_of_none (expressions_token t)
  | leaf hleaf ts place =>
      have hne (kind : NodeKind) : kind.isLeaf = true → kind ≠ .element ∧ kind ≠ .expressionCode := by
        cases kind <;> decide
      rw [overTokens, TagHelperScope.bindTree_overTokens (hne _ hleaf).1]
      exact Emitted.shows_of_none (expressions_overTokens (hne _ hleaf).2 _ _ _)
  | code ts place plain =>
      rw [TagHelperScope.bindTree_overTokens (by decide)]
      exact Emitted.shows_of_none (expressions_overTokens (by decide) _ _ _)
  | expression hkind before after marks ts place place' =>
      rw [TagHelperScope.bindTree_expression (by rcases hkind with rfl | rfl <;> decide) parent marks]
      refine ⟨fun hn _ => ?_, fun hbinding => absurd hbinding Bool.false_ne_true⟩
      obtain rfl := eq_of_mem_expressions (by rcases hkind with rfl | rfl <;> decide) marks hn
      rw [spanning, whole_expression component isMarkup hkind marks]
      exact Emission.cover_expression hblank
  | branch hbranch parts place ih =>
      refine Emitted.shows_bindTree_node parts ih (fun kind' label' children hcases h hend => ?_) _ _
      rcases hcases with ⟨rfl, rfl⟩ | ⟨-, rfl, b, rfl⟩
      · exact Emitted.shows_branch hbranch h hend
      · exact Emitted.shows_tagHelperElement h hend hblank b
  | directive parts values place ih =>
      refine Emitted.shows_bindTree_node parts ih (fun kind' label' children hcases h _ => ?_) _ _
      rcases hcases with ⟨rfl, rfl⟩ | ⟨helement, -⟩
      · exact Emitted.shows_directive h _
      · exact absurd helement (by decide)

/-! ## The expressions of a document -/

namespace Engine

variable {e : Engine} {mayGoOn : Phase → Bool} {r : Request} {c : Compilation}

/-- An expression of a compiled document that is neither blank nor left out lies within a piece of the
    source that is mapped. -/
theorem exists_mapping_of_expression (h : e.compileWhile mayGoOn r = .ok c) {n : Tree}
    (hn : n ∈ c.document.root.expressions) (hblank : Text.isBlank n.text = false)
    (hkept : n ∉ c.document.root.leftOut c.document.fileKind.isComponent) :
    ∃ m ∈ c.csharp.mappings, n.span.Within m.source := by
  have hshows : Emitted.Shows c.document.fileKind.isComponent n (c.document.root,
      Emitted.ofTree c.document.fileKind.isComponent false c.document.root) := by
    obtain ⟨-, -, -, hdocument, -⟩ := compileWhile_eq_ok h
    obtain ⟨-, hparsed, -⟩ := ParsedDocument.parse_run r.fileKind r.source
    rw [hdocument]
    exact hparsed.shows hblank none false
  obtain ⟨f, hf, piece, hpiece, hne, hwithin⟩ := hshows.whole hn hkept
  obtain ⟨m, hm, hsource⟩ := exists_mapping_of_shown h hf hpiece hne
  exact ⟨m, hm, by rw [hsource]; exact hwithin⟩

/-- The value of an attribute in quotes is mapped, and so is an expression between tags. -/
theorem exists_mapping_of_expression_quoted :
    ∃ c, bare.compileWhile (fun _ => true)
        ⟨.ofFile "<p class=\"@b\">@c</p>" "/p/Index.razor", .component, []⟩ = .ok c ∧
      c.document.root.expressions.map Tree.text = ["b".toList, "c".toList] ∧
      ∀ n ∈ c.document.root.expressions, ∃ m ∈ c.csharp.mappings, n.span.Within m.source := by
  obtain ⟨c, hc⟩ : ∃ c, bare.compileWhile (fun _ => true)
      ⟨.ofFile "<p class=\"@b\">@c</p>" "/p/Index.razor", .component, []⟩ = .ok c := ⟨_, rfl⟩
  have hfacts : (bare.compileWhile (fun _ => true)
      ⟨.ofFile "<p class=\"@b\">@c</p>" "/p/Index.razor", .component, []⟩).toOption.map (fun c =>
        (c.document.root.expressions.map Tree.text,
          (c.document.root.leftOut c.document.fileKind.isComponent).isEmpty)) =
      some (["b".toList, "c".toList], true) := by
    decide +kernel
  rw [hc] at hfacts
  obtain ⟨htexts, hempty⟩ := Prod.mk.inj (Option.some.inj hfacts)
  refine ⟨c, hc, htexts, fun n hn => exists_mapping_of_expression hc hn ?_ ?_⟩
  · have htext : n.text ∈ ["b".toList, "c".toList] := htexts ▸ List.mem_map_of_mem hn
    revert htext
    generalize n.text = t
    revert t
    decide
  · rw [List.isEmpty_iff.mp hempty]
    exact List.not_mem_nil

/-- Without the quotes, the expression is in no piece of the source that is mapped. -/
theorem not_exists_mapping_of_expression_unquoted :
    ∃ c, bare.compileWhile (fun _ => true)
        ⟨.ofFile "<p class=@b></p>" "/p/Index.razor", .component, []⟩ = .ok c ∧
      ∃ n ∈ c.document.root.expressions, Text.isBlank n.text = false ∧
        ¬ ∃ m ∈ c.csharp.mappings, n.span.Within m.source := by
  obtain ⟨c, hc⟩ : ∃ c, bare.compileWhile (fun _ => true)
      ⟨.ofFile "<p class=@b></p>" "/p/Index.razor", .component, []⟩ = .ok c := ⟨_, rfl⟩
  have hfacts : (bare.compileWhile (fun _ => true)
      ⟨.ofFile "<p class=@b></p>" "/p/Index.razor", .component, []⟩).toOption.map (fun c =>
        c.document.root.expressions.map fun n =>
          (Text.isBlank n.text, c.csharp.mappings.any fun m => decide (n.span.Within m.source))) =
      some [(false, false)] := by
    decide +kernel
  rw [hc] at hfacts
  obtain ⟨n, hexpressions, hn⟩ := List.map_eq_singleton_iff.mp (Option.some.inj hfacts)
  obtain ⟨hblank, hnone⟩ := Prod.mk.inj hn
  have hmem : n ∈ c.document.root.expressions := by
    rw [hexpressions]
    exact List.mem_singleton_self n
  refine ⟨c, hc, n, hmem, hblank, fun ⟨m, hm, hwithin⟩ => ?_⟩
  exact List.any_eq_false.mp hnone m hm (decide_eq_true hwithin)

end Engine

end RazorLang
