import Mathlib.Data.List.Nodup
import RazorLang.Proofs.Grammar.Completion
import RazorLang.Proofs.Source.Lines

/-!
# Closing delimiters

The parenthesis that closes an explicit expression, and the brace that closes a block of statements, is the first
one that closes nothing before it. Where there is none, the construct reaches the end of the source, which is
reported; nothing else is reported so (`ParsedDocument.closing_delimiters`).
-/

namespace RazorLang

open RazorLang.Tree RazorLang.Grammar Reader

variable {inside : Bool} {r : Reader} {n : Tree} {reports : List Diagnostic} {x : Diagnostic} {d : Source}
  {kind : FileKind} {v : Visit}

/-- The report of an explicit expression behind a transition that is not closed. -/
def Tree.unclosedExpression (transition : Tree) : Diagnostic :=
  ⟨.missingClose "explicit expression" '(' ')', transition.span⟩

/-- The report of a block of statements that is not closed, at the end of a source. -/
def Source.unclosedBlock (d : Source) : Diagnostic :=
  ⟨.missingClose "code" '\x7b' '\x7d', Span.empty d.path (d.location d.size)⟩

theorem Tree.IsOpenExpression.tokens_ne_nil {t : Tree} (h : n.IsOpenExpression t) : n.tokens ≠ [] := by
  obtain ⟨-, ⟨-, u, hu, -⟩, opened, code, hchildren, -⟩ := h
  have ht : t ∈ n.children := hchildren ▸ List.mem_cons_self ..
  have hmark : u ∈ t.tokens := mem_tokens_of_token_mem (hu ▸ List.mem_singleton_self _)
  exact List.ne_nil_of_mem (mem_tokens_of_mem_children ht hmark)

/-- What is reported of an explicit expression or of a block says that the source ends in it. -/
theorem Completes.of_missingClose (h : Completes inside n r reports) (hx : x ∈ reports) {block : Text}
    {opener closer : Char} (hcause : x.cause = .missingClose block opener closer) :
    r.AtEnd ∧ n.tokens ≠ [] ∧
      ((block = "explicit expression".toList ∧ ∃ t, n.IsOpenExpression t ∧ x = t.unclosedExpression) ∨
        (block = "code".toList ∧ n.LeavesOpen ∧ x = r.unended "code")) := by
  cases h with
  | simple | expression | body => exact absurd hx List.not_mem_nil
  | element =>
      obtain ⟨name, hnesting | hnesting⟩ := cause_of_nestingReport? (Option.mem_toList.mp hx)
      · exact nomatch hcause.symm.trans hnesting
      · exact nomatch hcause.symm.trans hnesting
  | openExpression hopen hatEnd =>
      obtain rfl := List.mem_singleton.mp hx
      exact ⟨hatEnd, hopen.tokens_ne_nil, Or.inl ⟨(Cause.missingClose.inj hcause).1.symm, _, hopen, rfl⟩⟩
  | openBlock hopen hbegins hatEnd =>
      obtain rfl := List.mem_singleton.mp hx
      exact ⟨hatEnd, hopen.tokens_ne_nil hbegins, Or.inr ⟨(Cause.missingClose.inj hcause).1.symm, hopen, rfl⟩⟩

namespace ParsedDocument

/-- A block that ends with the source is reported there. -/
theorem unended_of_atEnd (h : v.Stands (readerOf d)) (hatEnd : v.finish.AtEnd) :
    v.finish.unended "code" = d.unclosedBlock := by
  obtain ⟨hpath, hplace⟩ := place_of_atEnd h hatEnd
  have hend : d.location d.size = Location.start.advance d.text :=
    Source.location_of_append (List.append_nil d.text).symm (Text.not_partsBreak_nil_right d.text)
  rw [Reader.unended, Source.unclosedBlock, hpath, hplace, hend]

/-- No two explicit expressions start with one transition. -/
theorem eq_of_transition (kind : FileKind) (d : Source) {n m t u : Tree} {more others : List Tree}
    (hn : n ∈ (parse kind d).root.nodes) (hm : m ∈ (parse kind d).root.nodes)
    (hkind : n.kind? = some .explicitExpression) (hkind' : m.kind? = some .explicitExpression)
    (ht : n.children = t :: more) (hu : m.children = u :: others) (hspan : t.span = u.span) : n = m := by
  have hnodup : (((parse kind d).root.nodes.filter isConstruct).map fun n =>
      n.children.head?.map (·.span.start.offset)).Nodup := by
    rw [List.Nodup, List.pairwise_map]
    refine (pairwise_constructs kind d).imp ?_
    rintro n m ⟨c, hc, e, he, hlt⟩ heq
    rw [hc, he] at heq
    exact Nat.ne_of_lt hlt (Option.some.inj heq)
  have hmem {e : Tree} (he : e ∈ (parse kind d).root.nodes) (hkind : e.kind? = some .explicitExpression) :
      e ∈ (parse kind d).root.nodes.filter isConstruct :=
    List.mem_filter.mpr ⟨he, isConstruct_iff.mpr (Or.inr hkind)⟩
  refine List.inj_on_of_nodup_map hnodup (hmem hn hkind) (hmem hm hkind') ?_
  rw [ht, hu, List.head?_cons, List.head?_cons, Option.map_some, Option.map_some, hspan]

/-- Only an explicit expression or a block of statements that the source ends in is reported not to be closed. -/
theorem exists_unclosed (kind : FileKind) (d : Source) {x : Diagnostic} (hx : x ∈ (parse kind d).diagnostics)
    {block : Text} {opener closer : Char} (hcause : x.cause = .missingClose block opener closer)
    (haside : x.cause.isAside = false) :
    ∃ n ∈ (parse kind d).root.nodes, n.span.stop = d.size ∧
      ((block = "explicit expression".toList ∧ ∃ t, n.IsOpenExpression t ∧ x = t.unclosedExpression) ∨
        (block = "code".toList ∧ n.LeavesOpen ∧ x = d.unclosedBlock)) := by
  obtain ⟨visits, hnodes, hvisits, hreports⟩ := visits_reports kind d
  obtain ⟨v, hv, hx⟩ := (hreports x haside).mp hx
  have hnode : v.node ∈ (parse kind d).root.nodes := hnodes ▸ List.mem_map_of_mem hv
  obtain ⟨hatEnd, htokens, hends⟩ := (hvisits v hv).completes.of_missingClose hx hcause
  rw [unended_of_atEnd (hvisits v hv) hatEnd] at hends
  exact ⟨v.node, hnode, stop_of_atEnd hnode (hvisits v hv) hatEnd htokens, hends⟩

theorem expression_ends (kind : FileKind) (d : Source) {n : Tree} (hn : n ∈ (parse kind d).root.nodes)
    (hkind : n.kind? = some .explicitExpression) :
    (n.IsClosedExpression ∧ ∀ t ∈ n.children.head?, t.unclosedExpression ∉ (parse kind d).diagnostics) ∨
      ∃ t, n.IsOpenExpression t ∧ t.unclosedExpression ∈ (parse kind d).diagnostics ∧ n.span.stop = d.size := by
  obtain ⟨visits, hnodes, hvisits, hreports⟩ := visits_reports kind d
  obtain ⟨v, hv, rfl⟩ := exists_visit hnodes hn
  rcases (hvisits v hv).completes.of_expression hkind with ⟨hclosed, -⟩ | ⟨t, hopen, hatEnd, hreport⟩
  · refine Or.inl ⟨hclosed, fun t ht hx => ?_⟩
    obtain ⟨first, opened, code, closed, hchildren, -⟩ := hclosed
    obtain rfl : first = t := Option.some.inj (by rwa [hchildren] at ht)
    obtain ⟨m, hm, -, ⟨-, u, ⟨hkind', -, opened', code', hchildren', -⟩, heq⟩ | ⟨hblock, -⟩⟩ :=
      exists_unclosed kind d hx rfl rfl
    · have hsame := eq_of_transition kind d hn hm hkind hkind' hchildren hchildren' (congrArg Diagnostic.span heq)
      rw [hsame, hchildren'] at hchildren
      exact nomatch hchildren
    · exact nomatch hblock
  · have hmem : t.unclosedExpression ∈ v.reports := hreport ▸ List.mem_singleton_self _
    refine Or.inr ⟨t, hopen, (hreports _ rfl).mpr ⟨v, hv, hmem⟩, ?_⟩
    exact stop_of_atEnd hn (hvisits v hv) hatEnd hopen.tokens_ne_nil

theorem block_ends (kind : FileKind) (d : Source) {n block : Tree} (hn : n ∈ (parse kind d).root.nodes)
    (hbody : n.isBody = true) {before after : List Tree} (hchildren : n.children = before ++ block :: after)
    (hblock : block.kind? = some .codeBlock) :
    (Balanced .openBrace .closeBrace block.statementTokens ∧
        ∃ closed ∈ after.head?, closed.IsDelimiter .closeBrace) ∨
      (after = [] ∧ d.unclosedBlock ∈ (parse kind d).diagnostics ∧ n.span.stop = d.size) := by
  obtain ⟨visits, hnodes, hvisits, hreports⟩ := visits_reports kind d
  obtain ⟨v, hv, rfl⟩ := exists_visit hnodes hn
  rcases (hvisits v hv).completes.of_body hbody with ⟨hcloses, -⟩ | ⟨hopen, hbegins, hatEnd, hreport⟩
  · exact Or.inl ((hchildren ▸ hcloses).split hblock)
  · rcases (hchildren ▸ hopen).split hblock with rfl | hclosed
    · have hmem : d.unclosedBlock ∈ v.reports := by
        rw [hreport, unended_of_atEnd (hvisits v hv) hatEnd]
        exact List.mem_singleton_self _
      refine Or.inr ⟨rfl, (hreports _ rfl).mpr ⟨v, hv, hmem⟩, ?_⟩
      refine stop_of_atEnd hn (hvisits v hv) hatEnd ?_
      exact LeavesOpen.tokens_ne_nil (Or.inl ⟨hbody, hopen⟩) fun _ => hbegins
    · exact Or.inl hclosed

/-- In a parsed document an explicit expression ends with the first parenthesis that closes nothing in its code,
    or with the source, and the latter is reported on its transition. Behind a block of statements in braces
    comes the first brace that closes nothing in the statements, or the block and what holds it end with the
    source, which is reported at the end. No other report says that an expression or a block of statements is
    not closed. -/
theorem closing_delimiters (kind : FileKind) (d : Source) :
    (∀ n ∈ (parse kind d).root.nodes, n.kind? = some .explicitExpression →
      (n.IsClosedExpression ∧ ∀ t ∈ n.children.head?, t.unclosedExpression ∉ (parse kind d).diagnostics) ∨
        ∃ t, n.IsOpenExpression t ∧ t.unclosedExpression ∈ (parse kind d).diagnostics ∧ n.span.stop = d.size) ∧
    (∀ n ∈ (parse kind d).root.nodes, n.isBody = true → ∀ before block after,
      n.children = before ++ block :: after → block.kind? = some .codeBlock →
        (Balanced .openBrace .closeBrace block.statementTokens ∧
          ∃ closed ∈ after.head?, closed.IsDelimiter .closeBrace) ∨
        (after = [] ∧ d.unclosedBlock ∈ (parse kind d).diagnostics ∧ n.span.stop = d.size)) ∧
    ∀ x ∈ (parse kind d).diagnostics, ∀ opener closer,
      (x.cause = .missingClose "explicit expression" opener closer →
        ∃ n ∈ (parse kind d).root.nodes, ∃ t, n.IsOpenExpression t ∧ x = t.unclosedExpression) ∧
      (x.cause = .missingClose "code" opener closer → x = d.unclosedBlock ∧
        ∃ n ∈ (parse kind d).root.nodes, n.LeavesOpen ∧ n.span.stop = d.size) := by
  refine ⟨fun n hn hkind => expression_ends kind d hn hkind, ?_, fun x hx opener closer => ⟨fun hcause => ?_, ?_⟩⟩
  · exact fun n hn hbody before block after hchildren hblock => block_ends kind d hn hbody hchildren hblock
  · obtain ⟨n, hn, -, ⟨-, hopen⟩ | ⟨hblock, -⟩⟩ := exists_unclosed kind d hx hcause (by rw [hcause]; rfl)
    · exact ⟨n, hn, hopen⟩
    · exact nomatch hblock
  · intro hcause
    obtain ⟨n, hn, hstop, ⟨hblock, -⟩ | ⟨-, hopen, hreport⟩⟩ :=
      exists_unclosed kind d hx hcause (by rw [hcause]; rfl)
    · exact nomatch hblock
    · exact ⟨hreport, n, hn, hopen, hstop⟩

end ParsedDocument

end RazorLang
