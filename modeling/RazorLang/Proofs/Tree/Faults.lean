import RazorLang.Proofs.Grammar.MarkupReports
import RazorLang.Proofs.Tree.Nodes

/-!
# What is wrong with a parsed source

With a document, what the grammar reports of a source is reported, and what is wrong with its directives for
tag helpers (`ParsedDocument.faults`). All of it is on spans of that source (`ParsedDocument.holdsAll_faults`),
whatever the source is: reading it starts at a place of it, and the rules of the grammar keep to places of it.
-/

namespace RazorLang

namespace Diagnostic

/-- Repeats are reports that stay. -/
theorem mem_dropRepeats {x : Diagnostic} {reports : List Diagnostic} :
    x ∈ dropRepeats reports ↔ x ∈ reports := by
  fun_induction dropRepeats reports with
  | case1 => exact Iff.rfl
  | case2 => exact Iff.rfl
  | case3 y rest ih =>
      rw [ih]
      exact (List.mem_cons.trans (or_iff_right_of_imp fun heq => heq ▸ List.mem_cons_self)).symm
  | case4 y z rest hne ih => rw [List.mem_cons, ih, ← List.mem_cons]

end Diagnostic

namespace Source

variable {d : Source} {t n : Tree}

theorem HoldsTree.tokens (h : d.HoldsTree t) : d.HoldsTokens t.tokens := by
  induction h with
  | token h =>
      rw [Tree.tokens_token]
      exact List.forall_mem_singleton.mpr h
  | node hspan hlabel hchildren ih =>
      rw [Tree.tokens_node, Tree.tokensAll_eq_flatMap]
      intro u hu
      obtain ⟨c, hc, hu⟩ := List.mem_flatMap.mp hu
      exact ih c hc u hu

theorem HoldsTree.of_mem_nodes (h : d.HoldsTree t) (hn : n ∈ t.nodes) : d.HoldsTree n := by
  induction h with
  | token h =>
      rw [Tree.nodes_token] at hn
      exact absurd hn List.not_mem_nil
  | node hspan hlabel hchildren ih =>
      rcases Tree.mem_nodes_node.mp hn with rfl | ⟨c, hc, hn⟩
      · exact .node hspan hlabel hchildren
      · exact ih c hc hn

end Source

namespace ParsedDocument

open Source

variable {d : Source} {x : Diagnostic}

/-- What is wrong with the directives for tag helpers, which a component must not have at all. -/
def directiveFaults (component : Bool) (p : ParsedDocument) : List Diagnostic :=
  p.chunks.flatMap fun chunk =>
    if component then Resolution.misplaced chunk else Resolution.labelDiagnostics chunk.2

/-- What is wrong with a source: what the grammar reports, and what is wrong with its directives. -/
def faults (component : Bool) (p : ParsedDocument) : List Diagnostic :=
  p.diagnostics ++ p.directiveFaults component

/-- With a document, the directives of its imports and its own are reported. -/
theorem resolve_diagnostics (document : ParsedDocument) (imports : List ParsedDocument)
    (known : List TagHelper) (o : Options) : (resolve document imports known o).diagnostics =
      (imports ++ [document]).flatMap (directiveFaults document.fileKind.isComponent) := by
  unfold resolve
  split
  · next hcomponent =>
      rw [hcomponent]
      exact List.flatMap_assoc
  · next hpage =>
      rw [Bool.eq_false_iff.mpr hpage]
      show List.flatMap Resolution.labelDiagnostics (List.map Prod.snd _) = _
      rw [List.flatMap_map]
      exact List.flatMap_assoc

theorem isReader_readerOf (d : Source) : d.IsReader (readerOf d) where
  path := rfl
  place := ⟨[], rfl, rfl, fun hparts => nomatch hparts.1⟩
  reported := holdsAll_nil

theorem mem_arrange {reported : List Diagnostic} {root : Tree} :
    x ∈ arrange reported root ↔ x ∈ reported ∨ ∃ t ∈ root.tokens, x ∈ t.diagnostics := by
  rw [arrange, Diagnostic.mem_dropRepeats, List.mem_mergeSort, List.mem_append, List.mem_flatMap]

/-- A parsed source has a tree of the source, and diagnostics on spans of it. -/
theorem holds_parse (fileKind : FileKind) (d : Source) :
    d.HoldsTree (parse fileKind d).root ∧ d.HoldsAll (parse fileKind d).diagnostics := by
  obtain ⟨htrees, hreader⟩ := Grammar.markup_keeps fileKind .document _ (isReader_readerOf d)
  have hplace : d.Holds (Span.empty d.path .start) := holds_empty (isReader_readerOf d).isPlace
  have hroot : d.HoldsTree (parse fileKind d).root :=
    (htrees.spanning .markupBlock hplace).single.spanning .document hplace
  refine ⟨hroot, fun x hx => ?_⟩
  rcases mem_arrange.mp hx with hx | ⟨t, ht, hx⟩
  · exact hreader.reported x (List.mem_reverse.mp hx)
  · exact (hroot.tokens t ht).reports x hx

/-- A label on a piece of code is on a node of the tree. -/
theorem mem_nodes_of_mem_chunks {p : ParsedDocument} {t : Tree} {label : Label}
    (h : (t, label) ∈ p.chunks) :
    t ∈ p.root.nodes ∧ ∃ span children, t = .node .statementCode span (some label) children := by
  obtain ⟨u, hu, hchunk⟩ := List.mem_filterMap.mp h
  split at hchunk
  · split at hchunk
    · exact nomatch hchunk
    · exact nomatch hchunk
    · obtain ⟨rfl, rfl⟩ := Prod.mk.inj (Option.some.inj hchunk)
      exact ⟨Tree.mem_nodes_of_mem_descendants hu, _, _, rfl⟩
  · exact nomatch hchunk

/-- A directive that a component must not have is reported as a whole. -/
theorem span_of_mem_misplaced {t : Tree} {label : Label} (h : x ∈ Resolution.misplaced (t, label)) :
    x.span = t.span := by
  cases label with
  | addTagHelper text => rw [List.mem_singleton.mp h]
  | removeTagHelper text => rw [List.mem_singleton.mp h]
  | tagPrefix value diagnostics => rw [List.mem_singleton.mp h]
  | addImport space isStatic shortName => exact absurd h List.not_mem_nil
  | directive use => exact absurd h List.not_mem_nil
  | tagHelper binding => exact absurd h List.not_mem_nil

/-- What is wrong with a source is on spans of the source. -/
theorem holdsAll_faults (fileKind : FileKind) (d : Source) (component : Bool) :
    d.HoldsAll ((parse fileKind d).faults component) := by
  obtain ⟨hroot, hdiagnostics⟩ := holds_parse fileKind d
  refine hdiagnostics.append fun x hx => ?_
  obtain ⟨⟨t, label⟩, hchunk, hx⟩ := List.mem_flatMap.mp hx
  obtain ⟨hmem, span, children, rfl⟩ := mem_nodes_of_mem_chunks hchunk
  cases hroot.of_mem_nodes hmem with
  | node hspan hlabel hchildren =>
      split at hx
      · rw [span_of_mem_misplaced hx]
        exact hspan
      · exact hlabel label rfl x hx

end ParsedDocument

end RazorLang
