import RazorLang.Proofs.Grammar.MarkupPlacing

/-!
# Nodes without gaps

In a parsed document each node starts where its first child does, each child starts where the one before it
ends, and the node ends where its last child does, with one exception: in a closed explicit expression
without code, the empty piece of code stands behind the closing parenthesis and not before it
(`ParsedDocument.isContiguous_iff_not_isHollow`).
-/

namespace RazorLang

open RazorLang.Tree RazorLang.Grammar

instance (n : Tree) : Decidable n.IsContiguous :=
  decidable_of_iff
    ((∀ c ∈ n.children.head?, c.span.start.offset = n.span.start.offset) ∧
      n.children.IsChain (fun a b => b.span.start.offset = a.span.stop) ∧
      (∀ c ∈ n.children.getLast?, c.span.stop = n.span.stop) ∧
      (n.children = [] → n.span.length = 0))
    ⟨fun ⟨hfirst, hadjacent, hlast, hempty⟩ => ⟨hfirst, hadjacent, hlast, hempty⟩,
      fun h => ⟨h.first, h.adjacent, h.last, h.empty⟩⟩

namespace ParsedDocument

theorem admits_contiguous :
    Admits fun n => (n.IsContiguous ↔ ¬ n.IsHollow) ∧ (n.IsHollow → n.IsDisplaced) where
  node _ h hfull _ := ⟨⟨fun _ => hfull, fun _ => h⟩, fun hhollow => absurd hhollow hfull⟩
  startTag _ h hfull _ := ⟨⟨fun _ => hfull, fun _ => h⟩, fun hhollow => absurd hhollow hfull⟩
  hollow _ h hhollow :=
    ⟨⟨fun hcontiguous => absurd hcontiguous h.not_isContiguous, fun hfull => absurd hhollow hfull⟩, fun _ => h⟩

/-- The tokens of each node lie where the node does. -/
theorem tokensLie_of_mem_nodes {kind : FileKind} {d : Source} {n : Tree}
    (hn : n ∈ (parse kind d).root.nodes) : TokensLie n.span.start.offset n.tokens n.span.stop := by
  refine tokensLie_tokens fun m hm => ?_
  obtain ⟨hiff, hdisplaced⟩ := nodes_parse admits_contiguous kind d m (nodes_trans hn hm)
  by_cases hhollow : m.IsHollow
  · exact Or.inr ⟨hhollow, hdisplaced hhollow⟩
  · exact Or.inl (hiff.mpr hhollow)

/-- The children of a node follow one another without a gap, from its start to its end, if and only if it is
    not a closed explicit expression without code. There the piece of code, which is empty, stands at the end
    of the expression, behind the parenthesis that closes it, and the other three children cover the
    expression. -/
theorem isContiguous_iff_not_isHollow (kind : FileKind) (d : Source) {n : Tree}
    (hn : n ∈ (parse kind d).root.nodes) :
    (n.IsContiguous ↔ ¬ n.IsHollow) ∧ (n.IsHollow → n.IsDisplaced) :=
  nodes_parse admits_contiguous kind d n hn

theorem isContiguous_iff_not_isHollow_parentheses :
    ∃ n ∈ (parse .component (.anonymous "a@()b")).root.nodes, n.IsHollow ∧ n.IsDisplaced := by
  obtain ⟨n, hn, hgap⟩ :
      ∃ n ∈ (parse .component (.anonymous "a@()b")).root.nodes, ¬ n.IsContiguous := by
    decide +kernel
  obtain ⟨hiff, hdisplaced⟩ := isContiguous_iff_not_isHollow .component (.anonymous "a@()b") hn
  have hhollow : n.IsHollow := not_not.mp fun hfull => hgap (hiff.mpr hfull)
  exact ⟨n, hn, hhollow, hdisplaced hhollow⟩

/-- Not all nodes of a document are without gaps. -/
theorem not_isContiguous_parentheses :
    ∃ n ∈ (parse .component (.anonymous "@()")).root.nodes, ¬ n.IsContiguous := by
  decide +kernel

end ParsedDocument

end RazorLang
