import RazorLang.Proofs.Grammar.MarkupDerivation
import RazorLang.Proofs.Tree.Contiguity
import RazorLang.Proofs.Tree.Coverage
import RazorLang.Proofs.Tree.Faults

/-!
# What is reported of the nodes of a document

In a derivation each node is complete once, in one of the ways of `Completes`, and what is reported is either an
aside or what one of the nodes calls for. So the reports of a parsed document that are no asides are, up to their
order, those of its nodes taken together (`ParsedDocument.visits_parse`).
-/

namespace RazorLang

open RazorLang.Tree Reader

/-- A node of a derivation: where it is complete, and what is reported of it there. -/
structure Visit where
  node : Tree
  /-- The node stands right inside an element. -/
  inside : Bool
  start : Reader
  finish : Reader
  reports : List Diagnostic

/-- The node is complete where its trees end, in what is derived from a reader on. -/
structure Visit.Stands (r : Reader) (v : Visit) : Prop where
  completes : Completes v.inside v.node v.finish v.reports
  derives : Derives (v.node.kind? == some .element) v.start v.node.children v.finish
  path : v.finish.tokenizer.path = r.tokenizer.path
  run : ∃ ts, Token.Run r.tokenizer.path r.tokenizer.place r.tokenizer.rest ts v.finish.tokenizer.place
    v.finish.tokenizer.rest

variable {inside : Bool} {r r' r'' : Reader} {trees : List Tree} {n : Tree} {reports : List Diagnostic} {v : Visit}

/-- What is reported of a node is no aside. -/
theorem Completes.not_aside (h : Completes inside n r reports) : ∀ x ∈ reports, x.cause.isAside = false := by
  cases h with
  | simple | expression | body => exact fun x hx => absurd hx List.not_mem_nil
  | element hkind =>
      intro x hx
      obtain ⟨name, hcause | hcause⟩ := cause_of_nestingReport? (Option.mem_toList.mp hx)
      · rw [hcause, Cause.isAside]
      · rw [hcause, Cause.isAside]
  | openExpression | openBlock =>
      intro x hx
      rw [List.mem_singleton.mp hx]
      rfl

/-- Elements and explicit expressions, which a token tells apart from one another. -/
def Tree.isConstruct (n : Tree) : Bool := n.kind? == some .element || n.kind? == some .explicitExpression

theorem Tree.isConstruct_of_kind {kind : NodeKind} (h : n.kind? = some kind)
    (hkind : kind ≠ .element ∧ kind ≠ .explicitExpression) : n.isConstruct = false := by
  rw [isConstruct, h]
  simp [hkind]

theorem Tree.isConstruct_iff : n.isConstruct = true ↔ n.kind? = some .element ∨ n.kind? = some .explicitExpression := by
  rw [isConstruct, Bool.or_eq_true, beq_iff_eq, beq_iff_eq]

/-- A tag is neither an element nor an expression. -/
theorem Tree.not_isConstruct_of_isTag (h : n.isTag = true) : n.isConstruct = false := by
  rw [← Bool.not_eq_true, isConstruct_iff]
  rintro (hkind | hkind)
  · exact Bool.false_ne_true ((isTag_of_kind hkind (by decide)).symm.trans h)
  · exact Bool.false_ne_true ((isTag_of_kind hkind (by decide)).symm.trans h)

/-- The token that a construct begins with is not empty, and the first tree under it is no construct. -/
structure Tree.IsLed (n : Tree) : Prop where
  lead : ∃ u ∈ n.lead?, u.content ≠ []
  plain : ∀ c ∈ n.children.head?, c.isConstruct = false

theorem Tree.IsTransition.isLed {t : Tree} {more : List Tree} (h : IsTransition t) (hn : n.children = t :: more) :
    n.IsLed := by
  obtain ⟨hkind, u, hu, -, hcontent⟩ := h
  refine ⟨⟨u, ?_, hcontent⟩, ?_⟩
  · rw [lead?, hn, List.head?_cons, Option.bind_some, hu]
    rfl
  · rw [hn]
    rintro c ⟨⟩
    exact isConstruct_of_kind hkind (by decide)

namespace Completes

/-- How an element is complete. -/
theorem of_element (h : Completes inside n r reports) (hkind : n.kind? = some .element) :
    ElementShape n.children ∧ TextPaired inside n ∧ (∃ u ∈ n.lead?, u.content ≠ []) ∧
      reports = n.nestingReport?.toList := by
  cases h with
  | element _ shape paired lead => exact ⟨shape, paired, lead, rfl⟩
  | simple hother hsimple =>
      obtain rfl := Option.some.inj (hkind.symm.trans hother)
      exact nomatch hsimple
  | expression hother => exact nomatch hkind.symm.trans hother
  | body hbody => exact absurd hbody (by simp [isBody, hkind])
  | openExpression hopen => exact nomatch hkind.symm.trans hopen.1
  | openBlock hopen => exact absurd hopen (by simp [LeavesOpen, isBody, hkind])

/-- How an explicit expression is complete: with its parenthesis, or with the source, which is reported. -/
theorem of_expression (h : Completes inside n r reports) (hkind : n.kind? = some .explicitExpression) :
    (n.IsClosedExpression ∧ reports = []) ∨ ∃ transition, n.IsOpenExpression transition ∧ r.AtEnd ∧
      reports = [⟨.missingClose "explicit expression" '(' ')', transition.span⟩] := by
  cases h with
  | expression _ closed => exact .inl ⟨closed, rfl⟩
  | openExpression hopen hatEnd => exact .inr ⟨_, hopen, hatEnd, rfl⟩
  | simple hother hsimple =>
      obtain rfl := Option.some.inj (hkind.symm.trans hother)
      exact nomatch hsimple
  | element hother => exact nomatch hkind.symm.trans hother
  | body hbody => exact absurd hbody (by simp [isBody, hkind])
  | openBlock hopen => exact absurd hopen (by simp [LeavesOpen, isBody, hkind])

/-- How a body is complete: its blocks are closed, or the source ends in the last one, which is reported. -/
theorem of_body (h : Completes inside n r reports) (hbody : n.isBody = true) :
    (ClosesBlocks n.children ∧ reports = []) ∨
      (EndsOpen n.children ∧ BeginsWith .metaCode n.children ∧ r.AtEnd ∧ reports = [r.unended "code"]) := by
  have hkinds : n.kind? = some .statementBody ∨ n.kind? = some .directiveBody := by
    rwa [isBody, Bool.or_eq_true, beq_iff_eq, beq_iff_eq] at hbody
  -- a node of another kind is no body
  have hne {kind : NodeKind} (hkind : n.kind? = some kind) : kind = .statementBody ∨ kind = .directiveBody := by
    rwa [hkind, Option.some.injEq, Option.some.injEq] at hkinds
  cases h with
  | body _ closed => exact .inl ⟨closed, rfl⟩
  | openBlock hopen hbegins hatEnd =>
      rcases hopen with ⟨-, hopen⟩ | ⟨hblock, -⟩
      · exact .inr ⟨hopen, hbegins hbody, hatEnd, rfl⟩
      · exact nomatch hne hblock
  | simple hother hsimple =>
      rcases hne hother with rfl | rfl
      · exact nomatch hsimple
      · exact nomatch hsimple
  | element hother => exact nomatch hne hother
  | expression hother => exact nomatch hne hother
  | openExpression hopen => exact nomatch hne hopen.1

/-- Each element and each explicit expression begins with a tag or a transition. -/
theorem isLed (h : Completes inside n r reports) (hn : n.isConstruct = true) : n.IsLed := by
  rcases isConstruct_iff.mp hn with hkind | hkind
  · obtain ⟨hshape, -, hlead, -⟩ := h.of_element hkind
    exact ⟨hlead, fun c hc => not_isConstruct_of_isTag (hshape.isTag_head c hc)⟩
  · rcases h.of_expression hkind with ⟨hclosed, -⟩ | ⟨transition, hopen, -⟩
    · obtain ⟨transition, opened, code, closed, hchildren, htransition, -⟩ := hclosed
      exact htransition.isLed hchildren
    · obtain ⟨-, htransition, opened, code, hchildren, -⟩ := hopen
      exact htransition.isLed hchildren

end Completes

/-- A node of what follows is a node of the whole. -/
theorem Visit.Stands.behind (h : v.Stands r') (hderives : Derives inside r trees r') : v.Stands r := by
  obtain ⟨hrun, hpath⟩ := hderives.run
  obtain ⟨ts, hfinish⟩ := h.run
  rw [hpath] at hfinish
  exact ⟨h.completes, h.derives, h.path.trans hpath, _, hrun.trans hfinish⟩

/-- The nodes of a derivation are visited in their order, and what is reported on the way but for asides is what
    is reported of them. -/
theorem Derives.visits (h : Derives inside r trees r') : ∃ visits : List Visit,
    visits.map Visit.node = nodesAll trees ∧ (∀ v ∈ visits, v.Stands r) ∧
      ∃ reports, r'.reported = reports ++ r.reported ∧
        (reports.filter fun x => !x.cause.isAside).Perm (visits.flatMap Visit.reports) := by
  induction h with
  | read h =>
      refine ⟨[], by rw [nodesAll_tokens]; rfl, fun v hv => absurd hv List.not_mem_nil, [], h.reported, .nil⟩
  | append h h' ih ih' =>
      obtain ⟨visits, hnodes, hvisits, reports, hreported, hperm⟩ := ih
      obtain ⟨visits', hnodes', hvisits', reports', hreported', hperm'⟩ := ih'
      refine ⟨visits ++ visits', ?_, ?_, reports' ++ reports, ?_, ?_⟩
      · rw [List.map_append, hnodes, hnodes', nodesAll_append]
      · intro v hv
        rcases List.mem_append.mp hv with hv | hv
        · exact hvisits v hv
        · exact (hvisits' v hv).behind h
      · rw [hreported', hreported, List.append_assoc]
      · rw [List.filter_append, List.flatMap_append]
        exact (hperm'.append hperm).trans List.perm_append_comm
  | @note inside r cause span aside =>
      refine ⟨[], by rw [nodesAll]; rfl, fun v hv => absurd hv List.not_mem_nil, [⟨cause, span⟩], rfl, ?_⟩
      rw [List.filter_singleton, aside]
      exact .nil
  | @node inside r r' kind span label trees reports complete h ih =>
      obtain ⟨visits, hnodes, hvisits, more, hreported, hperm⟩ := ih
      obtain ⟨hrun, hpath⟩ := h.run
      -- a node is visited before its parts, although its reports come behind theirs
      refine ⟨⟨.node kind span label trees, inside, r, r', reports⟩ :: visits, ?_, ?_, reports ++ more, ?_, ?_⟩
      · rw [List.map_cons, hnodes, nodesAll, nodesAll, List.append_nil, nodes]
      · intro v hv
        rcases List.mem_cons.mp hv with rfl | hv
        · exact ⟨complete, h, hpath, _, hrun⟩
        · exact hvisits v hv
      · show reports ++ r'.reported = _
        rw [hreported, List.append_assoc]
      · rw [List.filter_append, List.flatMap_cons]
        refine List.Perm.append ?_ hperm
        rw [List.filter_eq_self.mpr fun x hx => by rw [complete.not_aside x hx]; rfl]

/-- Each node among the trees of a derivation is complete. -/
theorem Derives.completes (h : Derives inside r trees r') {t : Tree} (ht : t ∈ trees) {kind : NodeKind}
    (hkind : t.kind? = some kind) : ∃ r reports, Completes inside t r reports := by
  induction h with
  | read h =>
      obtain ⟨u, -, rfl⟩ := List.mem_map.mp ht
      exact nomatch hkind
  | append h h' ih ih' => exact (List.mem_append.mp ht).elim ih ih'
  | note aside => exact absurd ht List.not_mem_nil
  | node complete h ih =>
      rw [List.mem_singleton.mp ht]
      exact ⟨_, _, complete⟩

/-! ## Documents -/

/-- Reports that are all different stay when others that are repeated go. -/
theorem Diagnostic.filter_dropRepeats {p : Diagnostic → Bool} (h : (reports.filter p).Nodup) :
    (dropRepeats reports).filter p = reports.filter p := by
  fun_induction dropRepeats reports with
  | case1 => rfl
  | case2 => rfl
  | case3 x rest ih =>
      cases hp : p x with
      | true =>
          rw [List.filter_cons_of_pos hp, List.filter_cons_of_pos hp] at h
          exact absurd (List.mem_cons_self ..) (List.nodup_cons.mp h).1
      | false =>
          rw [List.filter_cons_of_neg (Bool.eq_false_iff.mp hp)] at h ⊢
          exact ih h
  | case4 x y rest hne ih =>
      rw [List.filter_cons, List.filter_cons]
      split
      · next hp =>
          rw [List.filter_cons_of_pos hp] at h
          rw [ih (List.nodup_cons.mp h).2]
      · next hp =>
          rw [List.filter_cons_of_neg hp] at h
          rw [ih h]

namespace ParsedDocument

variable {d : Source} {root : Tree} {p : Diagnostic → Bool}

/-- Reports of a sort that no token has stay as they are when they are put into order, if they are all
    different. -/
theorem filter_arrange (htokens : ∀ t ∈ root.tokens, ∀ x ∈ t.diagnostics, p x = false)
    (hnodup : (reports.filter p).Nodup) : ((arrange reports root).filter p).Perm (reports.filter p) := by
  have hnone : (root.tokens.flatMap Token.diagnostics).filter p = [] := by
    rw [List.filter_eq_nil_iff]
    intro x hx
    obtain ⟨t, ht, hx⟩ := List.mem_flatMap.mp hx
    exact Bool.eq_false_iff.mp (htokens t ht x hx)
  have hsorted := (List.mergeSort_perm (reports ++ root.tokens.flatMap Token.diagnostics) Diagnostic.spanLe).filter p
  rw [List.filter_append, hnone, List.append_nil] at hsorted
  rw [arrange, Diagnostic.filter_dropRepeats (hsorted.nodup_iff.mpr hnodup)]
  exact hsorted

/-- What is wrong with a token is no matter of the nodes. -/
theorem isAside_of_mem_diagnostics {t : Token} {x : Diagnostic} (h : x ∈ t.diagnostics) : x.cause.isAside = true := by
  obtain ⟨f, -, rfl⟩ := List.mem_map.mp h
  cases f with
  | _ => rfl

/-- Each node of a document is visited, and what is reported but for asides is what is reported of the nodes. -/
theorem visits_parse (kind : FileKind) (d : Source) : ∃ visits : List Visit, ∃ reports,
    visits.map Visit.node = (parse kind d).root.nodes ∧ (∀ v ∈ visits, v.Stands (readerOf d)) ∧
      (parse kind d).diagnostics = arrange reports (parse kind d).root ∧
      (reports.filter fun x => !x.cause.isAside).Perm (visits.flatMap Visit.reports) := by
  obtain ⟨r, hderives, hdiagnostics⟩ := derives_root kind d
  obtain ⟨visits, hnodes, hvisits, reports, hreported, hperm⟩ := hderives.visits
  have hreports : r.reported = reports := hreported.trans (List.append_nil reports)
  refine ⟨visits, reports.reverse, ?_, hvisits, hreports ▸ hdiagnostics, ?_⟩
  · rw [hnodes, nodesAll, nodesAll, List.append_nil]
  · exact ((List.reverse_perm reports).filter _).trans hperm

/-- Each node of a document is complete in one of the ways that there are. -/
theorem exists_visit {kind : FileKind} {n : Tree} {visits : List Visit}
    (h : visits.map Visit.node = (parse kind d).root.nodes) (hn : n ∈ (parse kind d).root.nodes) :
    ∃ v ∈ visits, v.node = n := List.mem_map.mp (h ▸ hn)

/-- The reader that no token is ahead of is at the end of the source. -/
theorem place_of_atEnd {v : Visit} (h : v.Stands (readerOf d)) (hend : v.finish.AtEnd) :
    v.finish.tokenizer.path = d.path ∧ v.finish.tokenizer.place = Location.start.advance d.text := by
  obtain ⟨ts, hrun⟩ := h.run
  rw [hend.rest] at hrun
  refine ⟨h.path, ?_⟩
  rw [hrun.place, hrun.contentOf_eq]
  rfl

/-- What is no aside is reported if and only if one of the nodes calls for it. -/
theorem visits_reports (kind : FileKind) (d : Source) : ∃ visits : List Visit,
    visits.map Visit.node = (parse kind d).root.nodes ∧ (∀ v ∈ visits, v.Stands (readerOf d)) ∧
      ∀ x : Diagnostic, x.cause.isAside = false →
        (x ∈ (parse kind d).diagnostics ↔ ∃ v ∈ visits, x ∈ v.reports) := by
  obtain ⟨visits, reports, hnodes, hvisits, hdiagnostics, hperm⟩ := visits_parse kind d
  refine ⟨visits, hnodes, hvisits, fun x haside => ?_⟩
  have hreports : x ∈ reports ↔ ∃ v ∈ visits, x ∈ v.reports := by
    rw [← List.mem_flatMap, ← hperm.mem_iff, List.mem_filter, haside]
    exact (and_iff_left rfl).symm
  rw [hdiagnostics, mem_arrange, hreports, or_iff_left]
  rintro ⟨t, -, hx⟩
  exact Bool.false_ne_true (haside.symm.trans (isAside_of_mem_diagnostics hx))

/-- A node that is complete where no token is ahead ends where the source does. -/
theorem stop_of_atEnd {kind : FileKind} {v : Visit} (hnode : v.node ∈ (parse kind d).root.nodes)
    (h : v.Stands (readerOf d)) (hend : v.finish.AtEnd) (htokens : v.node.tokens ≠ []) :
    v.node.span.stop = d.size := by
  have hlast : token (v.node.tokens.getLast htokens) ∈ (v.node.tokens.map token).getLast? := by
    rw [List.getLast?_map, List.getLast?_eq_some_getLast htokens]
    rfl
  have hlies := tokensLie_of_mem_nodes hnode
  obtain ⟨kind, hkind⟩ := kind_of_mem_nodes hnode
  obtain ⟨hrun, -⟩ := h.derives.run
  rw [tokens_children hkind] at hrun
  have hplace : v.finish.tokenizer.place.offset = d.size := by
    rw [(place_of_atEnd h hend).2]
    exact Location.advance_start_offset _
  rw [← hlies.last _ hlast, ← hplace]
  exact (tokensLie_of_run hrun).last _ hlast

/-- In the order of the source, elements and explicit expressions start one behind the other: the first trees
    under them do. -/
theorem pairwise_constructs (kind : FileKind) (d : Source) :
    ((parse kind d).root.nodes.filter Tree.isConstruct).Pairwise fun n m =>
      ∃ c ∈ n.children.head?, ∃ e ∈ m.children.head?, c.span.start.offset < e.span.start.offset := by
  obtain ⟨visits, -, hnodes, hvisits, -⟩ := visits_parse kind d
  have hled : ∀ n ∈ (parse kind d).root.nodes, n.isConstruct = true → n.IsLed := by
    intro n hn hp
    obtain ⟨v, hv, rfl⟩ := exists_visit hnodes hn
    exact (hvisits v hv).completes.isLed hp
  -- the first tree under a construct starts with the token that the construct begins with
  have hstart : ∀ n ∈ (parse kind d).root.nodes, n.isConstruct = true → ∀ u ∈ n.lead?,
      ∃ c ∈ n.children.head?, c.span.start.offset = u.span.start.offset := by
    intro n hn hp u hu
    obtain ⟨c, hc, hu⟩ := Option.bind_eq_some_iff.mp hu
    obtain ⟨first, hfirst, hu⟩ := Option.bind_eq_some_iff.mp hu
    obtain rfl := eq_token_of_token? hu
    have hself : c ∈ c.nodes := by
      cases c with
      | token t => exact nomatch hfirst
      | node => exact mem_nodes_self rfl
    have hnode : c ∈ (parse kind d).root.nodes :=
      nodes_trans hn (nodes_subset_of_mem_children (List.mem_of_head? hc) hself)
    have hfull : ¬ c.IsHollow := by
      intro hhollow
      refine Bool.false_ne_true (((hled n hn hp).plain c hc).symm.trans (isConstruct_iff.mpr (.inr ?_)))
      obtain ⟨-, -, -, -, hkind, -⟩ := hhollow
      exact hkind
    exact ⟨c, hc, (((nodes_parse admits_contiguous kind d _ hnode).1.mpr hfull).first _ hfirst).symm⟩
  obtain ⟨⟨l, hrun⟩, -⟩ := parse_run kind d
  refine (pairwise_leads hrun (fun n hn hp => (hled n hn hp).plain) fun n hn hp => (hled n hn hp).lead).imp_of_mem
    fun {n m} hn hm h => ?_
  obtain ⟨u, hu, v, hv, hlt⟩ := h
  obtain ⟨hn, hp⟩ := List.mem_filter.mp hn
  obtain ⟨hm, hp'⟩ := List.mem_filter.mp hm
  obtain ⟨c, hc, hcu⟩ := hstart n hn hp u hu
  obtain ⟨e, he, hev⟩ := hstart m hm hp' v hv
  exact ⟨c, hc, e, he, by rwa [hcu, hev]⟩

end ParsedDocument

end RazorLang
