import RazorLang.Proofs.Grammar.Completion

/-!
# The elements of a document

The elements of a parsed document nest: each has one of four shapes, and the reports about nesting are those that
the elements call for, one each (`ParsedDocument.elements_nested`). The tag `<text>` is the exception to the rule
that what is read is written out: right inside code it stands for markup that is not an element, and then neither
it nor its end tag is written. The two are decided apart, and do not always agree
(`ParsedDocument.text_tags_paired`).
-/

namespace RazorLang

open RazorLang.Tree RazorLang.Grammar Reader

variable {inside : Bool} {r : Reader} {n e : Tree} {reports : List Diagnostic}

/-! ## Shapes and reports -/

/-- The report is about the nesting of elements. -/
def Diagnostic.isNesting (x : Diagnostic) : Bool := x.id == "RZ1006".toList || x.id == "RZ1007".toList

theorem Diagnostic.isNesting_eq_false {x : Diagnostic} (h : x.cause.isAside = true) : x.isNesting = false := by
  obtain ⟨cause, span⟩ := x
  cases cause with
  | unclosedElement | unexpectedEndTag => exact nomatch h
  | _ => rfl

/-- A report about nesting is on the tag that an element begins with. -/
theorem Tree.span_of_nestingReport? (hkind : e.kind? = some .element) (hshape : ElementShape e.children)
    {x : Diagnostic} (h : e.nestingReport? = some x) : ∀ c ∈ e.children.head?, x.span = c.span := by
  obtain ⟨span, label, hnode⟩ : ∃ span label, e = node .element span label e.children := by
    cases e with
    | token t => exact absurd hkind.symm (Option.some_ne_none _)
    | node kind span label children => exact ⟨span, label, by rw [Option.some.inj hkind]; rfl⟩
  generalize e.children = trees at hnode hshape
  subst hnode
  cases hshape with
  | alone s hs hcomplete =>
      have hneeds : s.needsEndTag = false := by
        rw [needsEndTag, Bool.and_eq_false_iff, Bool.not_eq_false', Bool.not_eq_false']
        exact hcomplete
      exact absurd (h.symm.trans (nestingReport?_alone hs hneeds)) (Option.some_ne_none x)
  | stray t ht =>
      rw [nestingReport?_stray ht] at h
      rintro c ⟨⟩
      split at h
      · exact absurd h.symm (Option.some_ne_none x)
      · exact (congrArg Diagnostic.span (Option.some.inj h)).symm
  | unclosed s content hs hneeds hplain =>
      rw [nestingReport?_unclosed hs hneeds hplain] at h
      rintro c ⟨⟩
      exact (congrArg Diagnostic.span (Option.some.inj h)).symm
  | closed s content t hs hneeds hplain ht hname =>
      exact absurd (h.symm.trans (nestingReport?_closed hs ht)) (Option.some_ne_none x)

/-- Of a node exactly that is reported about nesting which it calls for. -/
theorem Completes.filter_isNesting (h : Completes inside n r reports) :
    reports.filter Diagnostic.isNesting = n.nestingReport?.toList := by
  by_cases hkind : n.kind? = some .element
  · obtain ⟨-, -, -, rfl⟩ := h.of_element hkind
    refine List.filter_eq_self.mpr fun x hx => ?_
    obtain ⟨name, hcause | hcause⟩ := cause_of_nestingReport? (Option.mem_toList.mp hx)
    · rw [Diagnostic.isNesting, Diagnostic.id, hcause]
      rfl
    · rw [Diagnostic.isNesting, Diagnostic.id, hcause]
      rfl
  · rw [nestingReport?_of_kind hkind]
    cases h with
    | element h => exact absurd h hkind
    | simple | expression | body | openExpression | openBlock => rfl

namespace ParsedDocument

/-- No two elements call for the same report. -/
theorem nodup_nestingReports (kind : FileKind) (d : Source)
    (hshape : ∀ n ∈ (parse kind d).root.nodes, n.kind? = some .element → ElementShape n.children) :
    ((parse kind d).root.nodes.filterMap nestingReport?).Nodup := by
  have hpairs := pairwise_constructs kind d
  rw [List.pairwise_filter] at hpairs
  rw [List.Nodup, List.pairwise_filterMap]
  refine hpairs.imp_of_mem fun {n m} hn hm hlt x hx y hy => ?_
  have hkind {e : Tree} {z : Diagnostic} (hz : e.nestingReport? = some z) : e.kind? = some .element :=
    not_not.mp fun hne => nomatch (nestingReport?_of_kind hne).symm.trans hz
  obtain ⟨c, hc, e, he, hlt⟩ := hlt (isConstruct_iff.mpr (.inl (hkind hx))) (isConstruct_iff.mpr (.inl (hkind hy)))
  rintro rfl
  rw [← span_of_nestingReport? (hkind hx) (hshape n hn (hkind hx)) hx c hc,
    span_of_nestingReport? (hkind hy) (hshape m hm (hkind hy)) hy e he] at hlt
  exact Nat.lt_irrefl _ hlt

/-- In a parsed document each element is a start tag alone, which closes itself or has the name of a void element,
    or an end tag alone, or a start tag and what follows it, with or without an end tag of the same name. The
    reports about nesting are, up to their order, those of the elements whose end tag is missing and of the end
    tags that stand alone, one report for each. -/
theorem elements_nested (kind : FileKind) (d : Source) :
    (∀ n ∈ (parse kind d).root.nodes, n.kind? = some .element → ElementShape n.children) ∧
      ((parse kind d).diagnostics.filter Diagnostic.isNesting).Perm
        ((parse kind d).root.nodes.filterMap nestingReport?) ∧
      ((parse kind d).root.nodes.filterMap nestingReport?).Nodup := by
  obtain ⟨visits, reports, hnodes, hvisits, hdiagnostics, hperm⟩ := visits_parse kind d
  have hshape : ∀ n ∈ (parse kind d).root.nodes, n.kind? = some .element → ElementShape n.children := by
    intro n hn hkind
    obtain ⟨v, hv, rfl⟩ := exists_visit hnodes hn
    exact ((hvisits v hv).completes.of_element hkind).1
  have hnodup := nodup_nestingReports kind d hshape
  have hnesting : (reports.filter Diagnostic.isNesting).Perm ((parse kind d).root.nodes.filterMap nestingReport?) := by
    have hreports : (visits.flatMap Visit.reports).filter Diagnostic.isNesting =
        (parse kind d).root.nodes.filterMap nestingReport? := by
      rw [List.filter_flatMap, ← hnodes, List.filterMap_map, List.filterMap_eq_flatMap_toList]
      exact List.flatMap_congr fun v hv => (hvisits v hv).completes.filter_isNesting
    have hnesting := hperm.filter Diagnostic.isNesting
    rw [hreports, List.filter_filter] at hnesting
    rwa [List.filter_congr fun x _ => ?_] at hnesting
    cases haside : x.cause.isAside with
    | true => rw [Diagnostic.isNesting_eq_false haside, Bool.false_and]
    | false => rw [Bool.not_false, Bool.and_true]
  refine ⟨hshape, ?_, hnodup⟩
  rw [hdiagnostics]
  refine (filter_arrange (fun t ht x hx => ?_) (hnesting.nodup_iff.mpr hnodup)).trans hnesting
  exact Diagnostic.isNesting_eq_false (isAside_of_mem_diagnostics hx)

/-- The end tag of an element is not written exactly if its start tag is not written either, the element is not
    right inside another one, the end tag is `</text>` in lower case, and each element right inside this one has
    the end tag that it needs. -/
theorem text_tags_paired (kind : FileKind) (d : Source) {p e s t : Tree} (hp : p ∈ (parse kind d).root.nodes)
    (he : e ∈ p.children) (helement : e.kind? = some .element) (hs : e.elementStart? = some s)
    (ht : e.elementEnd? = some t) :
    t.kind? = some .markupEphemeral ↔ s.kind? = some .markupEphemeral ∧ p.kind? ≠ some .element ∧
      t.tagName = "text".toList ∧ ∀ c ∈ e.children, c.isUnclosed = false := by
  obtain ⟨visits, -, hnodes, hvisits, -⟩ := visits_parse kind d
  obtain ⟨v, hv, rfl⟩ := exists_visit hnodes hp
  obtain ⟨r, reports, hcompletes⟩ := (hvisits v hv).derives.completes he helement
  obtain ⟨-, hpaired, -⟩ := hcompletes.of_element helement
  rw [hpaired helement s t hs ht, beq_eq_false_iff_ne]

/-- Neither tag of a `<text>` in code is written. -/
theorem text_tags_paired_block :
    ∃ p ∈ (parse .legacy (.anonymous "@\x7b<text>a</text>\x7d")).root.nodes, ∃ e ∈ p.children, ∃ s t,
      e.elementStart? = some s ∧ e.elementEnd? = some t ∧ s.kind? = some .markupEphemeral ∧
        t.kind? = some .markupEphemeral := by
  obtain ⟨p, hp, e, he, helement, s, hs, t, ht, hstart⟩ :
      ∃ p ∈ (parse .legacy (.anonymous "@\x7b<text>a</text>\x7d")).root.nodes, ∃ e ∈ p.children,
        e.kind? = some .element ∧ ∃ s ∈ e.elementStart?, ∃ t ∈ e.elementEnd?, s.kind? = some .markupEphemeral ∧
          p.kind? ≠ some .element ∧ t.tagName = "text".toList ∧ ∀ c ∈ e.children, c.isUnclosed = false := by
    decide +kernel
  exact ⟨p, hp, e, he, s, t, hs, ht, hstart.1, (text_tags_paired _ _ hp he helement hs ht).mpr hstart⟩

/-- With an element left open in between, the end tag is written and the start tag is not. -/
theorem not_text_tags_paired_unclosed :
    ∃ e ∈ (parse .legacy (.anonymous "@\x7b<text><b></text>\x7d")).root.nodes,
      ∃ s ∈ e.elementStart?, ∃ t ∈ e.elementEnd?,
        e.kind? = some .element ∧ s.kind? = some .markupEphemeral ∧ t.kind? = some .endTag := by
  decide +kernel

end ParsedDocument

end RazorLang
