import RazorLang.Proofs.Engine
import RazorLang.Proofs.Generation.Separation
import RazorLang.Proofs.TagHelper.Binding
import RazorLang.Proofs.Tree.Coverage
import RazorLang.Proofs.Tree.Spelling

/-!
# Mappings of generated C#

Main statement: `Engine.mappings_compileWhile` — each mapping of the C# that a request is compiled to links
a piece of the source with the same text in the code, and there is a byte between any two of them in the
code. The route: whatever a bound document makes generation copy stands in the source at its span
(`ParsedDocument.copies_bind`), the printer maps copies to the place where it puts them
(`exists_copy_of_mem_mappings`), and it puts something between them (`PageModel.sound_prints`).
-/

namespace RazorLang

open RazorLang.Tree Text Print

/-- A mapping links a piece of a source, which is not empty, with the same text in some code. -/
structure Mapping.IsCopy (d : Source) (code : Text) (m : Mapping) : Prop where
  path : m.source.path = d.path
  positive : 0 < m.source.length
  length : m.source.length = m.generated.length
  text : ∃ t, slice? m.source.start.offset m.source.stop d.text = some t ∧
    slice? m.generated.start.offset m.generated.stop code = some t

/-! ## What a bound document copies -/

namespace Source

/-- A text that may be copied: if it is not empty, it stands in the source at the span. -/
def Allows (d : Source) (t : Text) (span : Span) : Prop := t ≠ [] → d.HasAt t span

variable {d : Source}

/-- What some tokens spell may be copied from the span of the node over them. -/
theorem allows_spanning {kind : NodeKind} {ts : List Token} {place : Span} {label : Option Label}
    (h : d.HasTokens (spanning kind (ts.map token) place label).tokens) :
    d.Allows (spanning kind (ts.map token) place label).text
      (spanning kind (ts.map token) place label).span := by
  intro hne
  rw [Tree.text, tokens_spanning, tokensAll_map_token] at hne ⊢
  rw [tokens_spanning, tokensAll_map_token] at h
  cases ts with
  | nil => exact absurd rfl hne
  | cons t ts => exact h.hasAt_spanOf place

/-- The code of a node that the grammar builds may be copied. -/
theorem allows_code {n : Tree} (hn : n.Shaped ∨ ∃ ts place, n = overTokens .expressionCode ts place)
    (hkind : n.kind? = some .statementCode ∨ n.kind? = some .expressionCode)
    (h : d.HasTokens n.tokens) : d.Allows n.text n.span := by
  have hother {kind : NodeKind} (hnot : kind ≠ .statementCode ∧ kind ≠ .expressionCode)
      (h : n.kind? = some kind) : d.Allows n.text n.span := by
    rw [h] at hkind
    rcases hkind with hkind | hkind
    · exact absurd (Option.some.inj hkind) hnot.1
    · exact absurd (Option.some.inj hkind) hnot.2
  rcases hn with hn | ⟨ts, place, rfl⟩
  · cases hn with
    | token t => rcases hkind with hkind | hkind <;> exact nomatch hkind
    | code ts place plain => exact allows_spanning h
    | leaf hleaf ts place =>
        refine hother ⟨?_, ?_⟩ rfl
        · rintro rfl
          exact nomatch hleaf
        · rintro rfl
          exact nomatch hleaf
    | expression hexpression before after marks ts place place' =>
        rcases hexpression with rfl | rfl
        · exact hother (by decide) rfl
        · exact hother (by decide) rfl
    | branch hbranch parts place =>
        refine hother ⟨?_, ?_⟩ rfl
        · rintro rfl
          exact nomatch hbranch
        · rintro rfl
          exact nomatch hbranch
    | directive parts values place => exact hother (by decide) rfl
  · exact allows_spanning h

/-- The values of a directive that the grammar builds may be copied. -/
theorem allows_value {n : Tree} {use : DirectiveUse}
    (hn : n.Shaped ∨ ∃ ts place, n = overTokens .expressionCode ts place)
    (huse : n.directive? = some use) (h : d.HasTokens n.tokens) {v : DirectiveValue}
    (hv : v ∈ use.values) : d.Allows v.text v.span := by
  intro _
  rcases hn with hn | ⟨ts, place, rfl⟩
  · cases hn with
    | token t => exact nomatch huse
    | leaf hleaf ts place => exact nomatch huse
    | @code ts place label plain =>
        have hlabel : label = some (.directive use) := by
          cases label with
          | none => exact nomatch huse
          | some label =>
              cases label with
              | directive use' => rw [← Option.some.inj huse]
              | _ => exact nomatch huse
        exact absurd hlabel (plain use)
    | expression hexpression before after marks ts place place' => exact nomatch huse
    | branch hbranch parts place => exact nomatch huse
    | directive parts values place =>
        rw [← Option.some.inj huse] at hv
        obtain ⟨before, first, given, after, rest, htokens, hcontent, hwhole, hspan⟩ := values v hv
        rw [tokens_spanning, htokens] at h
        have hfirst : d.HasTokens (first :: given) := h.of_append.1.of_append.2
        exact hfirst.hasAt (u := []) hcontent (Text.not_partsBreak_nil_left _) hwhole (by rw [hspan])
          (by rw [hspan]) (by rw [hspan]; rfl)
  · exact nomatch huse

end Source

namespace ParsedDocument

variable {kind : FileKind} {d : Source} {scope : TagHelperScope}

/-- The tokens of a node of a parsed document follow one another in the source. -/
theorem hasTokens_of_mem_nodes {n : Tree} (h : n ∈ (parse kind d).root.nodes) :
    d.HasTokens n.tokens := by
  obtain ⟨⟨l, hrun⟩, -, -⟩ := parse_run kind d
  obtain ⟨before, after, htokens⟩ := tokens_of_mem_nodes h
  rw [htokens] at hrun
  exact ⟨before, after, l, hrun⟩

/-- What generation copies of the nodes of a bound document stands in the source. -/
theorem copies_bind : ∀ n ∈ ((parse kind d).bind scope).root.nodes, n.Copies d.Allows := by
  intro n hn
  obtain ⟨m, hm, parent, rfl⟩ := TagHelperScope.mem_nodes_bindTree hn
  have htokens := hasTokens_of_mem_nodes hm
  obtain ⟨-, hparsed, -⟩ := parse_run kind d
  constructor
  · intro hkind
    have hkind' := hkind.imp (TagHelperScope.kind_bindTree · (by decide))
      (TagHelperScope.kind_bindTree · (by decide))
    rw [Tree.text, TagHelperScope.tokens_bindTree, TagHelperScope.span_bindTree]
    exact Source.allows_code (hparsed.of_mem_nodes hm) hkind' htokens
  · intro a ha v hv _
    refine hasAt_attributes ?_ ha hv
    obtain ⟨kind, hkind⟩ := kind_of_mem_nodes hn
    unfold Source.HasTrees
    rw [tokens_children hkind, TagHelperScope.tokens_bindTree]
    exact htokens

/-- The values of the directives of a bound document stand in the source. -/
theorem valuesIn_bind {p : PageModel} (hp : p.document = (parse kind d).bind scope) :
    p.ValuesIn d.Allows := by
  rintro ⟨t, use⟩ hx v hv
  rw [hp] at hx
  obtain ⟨n, hn, huse⟩ := List.mem_filterMap.mp hx
  obtain ⟨use', huse', heq⟩ := Option.map_eq_some_iff.mp huse
  rw [← (Prod.mk.inj heq).2] at hv
  obtain ⟨m, hm, parent, rfl⟩ := TagHelperScope.mem_nodes_bindTree (mem_nodes_of_mem_descendants hn)
  obtain ⟨-, hparsed, -⟩ := parse_run kind d
  exact Source.allows_value (hparsed.of_mem_nodes hm) (TagHelperScope.directive_bindTree huse')
    (hasTokens_of_mem_nodes hm) hv

end ParsedDocument

/-! ## The mappings of a compilation -/

namespace Engine

variable {e : Engine} {mayGoOn : Phase → Bool} {r : Request} {c : Compilation}

/-- Each mapping of the C# that a request is compiled to links a piece of the source with the same text
    in the code, and there is a byte of the code between any two mappings. -/
theorem mappings_compileWhile (h : e.compileWhile mayGoOn r = .ok c) :
    (∀ m ∈ c.csharp.mappings, m.IsCopy r.source c.csharp.code) ∧
      c.csharp.mappings.IsChain fun m n => m.generated.stop < n.generated.start.offset := by
  obtain ⟨hvalid, hcsharp, -⟩ := compileWhile_eq_ok h
  obtain ⟨lead, hprints⟩ := PageModel.toCSharp_eq_ok hcsharp
  have hsound : Sound (e.modelOf r).options r.source.Allows 0 0
      (lead.map .line ++ (e.modelOf r).prints) :=
    (Sound.map_line id lead).append (PageModel.sound_prints (Options.indents_of_validate hvalid)
      (ParsedDocument.valuesIn_bind rfl) ParsedDocument.copies_bind)
  rw [hprints]
  constructor
  · intro m hm
    obtain ⟨t, hne, hcopy, hlength, hslice⟩ := exists_copy_of_mem_mappings hm
    have hat := hsound.copies t m.source hcopy hne
    refine ⟨hat.path, ?_, hat.length.trans hlength.symm, t, hat.slice, hslice⟩
    rw [hat.length]
    exact size_pos_of_ne_nil hne
  · obtain ⟨-, hapart, -⟩ := hsound.moves {} rfl
    exact isChain_mappingsFrom (fun c hc => (mem_layout hc).1) hapart

/-- A page of one expression has one mapping. -/
theorem mappings_compileWhile_expression :
    ∃ c, bare.compileWhile (fun _ => true) ⟨.anonymous "@x", .legacy, []⟩ = .ok c ∧
      c.csharp.mappings.length = 1 ∧
      (∀ m ∈ c.csharp.mappings, m.IsCopy (.anonymous "@x") c.csharp.code) ∧
      c.csharp.mappings.IsChain fun m n => m.generated.stop < n.generated.start.offset := by
  obtain ⟨c, hc⟩ : ∃ c, bare.compileWhile (fun _ => true) ⟨.anonymous "@x", .legacy, []⟩ = .ok c :=
    ⟨_, rfl⟩
  have hlength : (bare.compileWhile (fun _ => true) ⟨.anonymous "@x", .legacy, []⟩).toOption.map
      (·.csharp.mappings.length) = some 1 := by
    decide +kernel
  rw [hc] at hlength
  exact ⟨c, hc, Option.some.inj hlength, mappings_compileWhile hc⟩

end Engine

end RazorLang
