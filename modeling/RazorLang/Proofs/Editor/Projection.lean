import RazorLang.Editor.Projection
import RazorLang.Proofs.Generation.Html
import RazorLang.Proofs.Generation.Mappings

/-!
# Moving along mappings and back

Main statement: `Engine.sourceIndex?_generatedIndex?` — an offset that is moved from a compiled source to one
of its projections is moved back to where it was, and the byte behind it is the same on both sides unless it
is at the end of its mapping.

The route: `Mapping.IsFaithful` says what both projections have in common. Since there is a gap between any
two mappings in the generated text, only one of them touches an offset there (`Mapping.IsFaithful.eq`), so
the way back takes the mapping that the way forth has taken.
-/

namespace RazorLang

open Text Print

namespace Mapping

/-- Some mappings link pieces of a source with the same bytes in some code, where there is a gap between any
    two of them. -/
structure IsFaithful (source code : Text) (ms : List Mapping) : Prop where
  length : ∀ m ∈ ms, m.source.length = m.generated.length
  apart : ms.Pairwise fun m n => m.generated.stop < n.generated.start.offset
  same : ∀ m ∈ ms, ∀ k < m.source.length, ∃ b,
    (bytes source)[m.source.start.offset + k]? = some b ∧
      (bytes code)[m.generated.start.offset + k]? = some b

variable {source code : Text} {ms : List Mapping} {m n : Mapping} {i j : Nat}

/-- Two mappings, of which the first touches an offset and the second one that is not before it, are one, or
    there is code between them. -/
theorem IsFaithful.eq_or_apart (h : IsFaithful source code ms) (hm : m ∈ ms) (hn : n ∈ ms)
    (hmi : m.generated.touches i = true) (hnj : n.generated.touches j = true) (hle : i ≤ j) :
    m = n ∨ m.generated.stop < n.generated.start.offset := by
  have hmi := Span.touches_eq_true.mp hmi
  have hnj := Span.touches_eq_true.mp hnj
  refine List.Pairwise.forall_of_forall_of_flip
    (R := fun m n : Mapping => m.generated.start.offset ≤ i → j ≤ n.generated.stop →
      m = n ∨ m.generated.stop < n.generated.start.offset)
    (fun _ _ _ _ => Or.inl rfl) (h.apart.imp ?_) (h.apart.imp ?_) hm hn hmi.1 hnj.2
  · intro m n hgap _ _
    exact Or.inr hgap
  · intro m n hgap hn hm
    omega

/-- Only one mapping touches an offset of the generated text. -/
theorem IsFaithful.eq (h : IsFaithful source code ms) (hm : m ∈ ms) (hn : n ∈ ms)
    (hmj : m.generated.touches j = true) (hnj : n.generated.touches j = true) : m = n := by
  rcases h.eq_or_apart hm hn hmj hnj (Nat.le_refl j) with heq | hgap
  · exact heq
  · have := (Span.touches_eq_true.mp hmj).2
    have := (Span.touches_eq_true.mp hnj).1
    omega

/-- The offset that a mapping moves to lies as far behind the mapping's start as the one that is moved. -/
theorem IsFaithful.generatedIndex?_eq_some (h : IsFaithful source code ms)
    (hij : generatedIndex? ms i .strict = some j) :
    ∃ m ∈ ms, ms.find? (·.source.touches i) = some m ∧ ∃ k ≤ m.source.length,
      i = m.source.start.offset + k ∧ j = m.generated.start.offset + k := by
  obtain ⟨m, hfind, hj⟩ := Option.map_eq_some_iff.mp hij
  have hm := List.mem_of_find?_eq_some hfind
  have htouches : m.source.touches i = true := by simpa using List.find?_some hfind
  obtain ⟨hstart, hstop⟩ := Span.touches_eq_true.mp htouches
  have hlength := h.length m hm
  rw [Span.stop] at hstop
  refine ⟨m, hm, hfind, i - m.source.start.offset, ?_, ?_, ?_⟩
  · omega
  · omega
  · rw [← hj, Nat.min_eq_left]
    omega

/-- The way back takes the mapping that the way forth has taken. -/
theorem IsFaithful.sourceIndex?_eq (h : IsFaithful source code ms) (hm : m ∈ ms) {k : Nat}
    (hk : k ≤ m.source.length) :
    sourceIndex? ms (m.generated.start.offset + k) = some (m.source.start.offset + k) := by
  have hlength := h.length m hm
  have htouches : m.generated.touches (m.generated.start.offset + k) = true :=
    Span.touches_eq_true.mpr ⟨Nat.le_add_right _ _, Nat.add_le_add_left (hlength ▸ hk) _⟩
  have hfind : ms.find? (·.generated.touches (m.generated.start.offset + k)) = some m := by
    cases hn : ms.find? (·.generated.touches (m.generated.start.offset + k)) with
    | none => exact absurd htouches (List.find?_eq_none.mp hn m hm)
    | some n =>
        have hntouches : n.generated.touches (m.generated.start.offset + k) = true := by
          simpa using List.find?_some hn
        rw [h.eq (List.mem_of_find?_eq_some hn) hm hntouches htouches]
  rw [sourceIndex?, hfind, Option.map_some, Nat.add_sub_cancel_left, Nat.min_eq_left hk]

end Mapping

/-! ## The projections of a compilation -/

namespace Engine

open Mapping

variable {e : Engine} {mayGoOn : Phase → Bool} {r : Request} {c : Compilation}

/-- What the printer is told when a request is compiled keeps its pieces apart and copies only the source. -/
theorem exists_sound (h : e.compileWhile mayGoOn r = .ok c) :
    ∃ prints, c.csharp = Generated.ofPrints (e.modelOf r).options prints ∧
      Sound (e.modelOf r).options r.source.Allows 0 0 prints := by
  obtain ⟨hvalid, hcsharp, -⟩ := compileWhile_eq_ok h
  obtain ⟨lead, hprints⟩ := PageModel.toCSharp_eq_ok hcsharp
  refine ⟨lead.map .line ++ (e.modelOf r).prints, hprints, ?_⟩
  exact (Sound.map_line id lead).append (PageModel.sound_prints (Options.indents_of_validate hvalid)
    (ParsedDocument.valuesIn_bind rfl) ParsedDocument.copies_bind)

theorem isFaithful_csharp (h : e.compileWhile mayGoOn r = .ok c) :
    IsFaithful r.source.text c.csharp.code c.csharp.mappings := by
  obtain ⟨prints, hprints, hsound⟩ := exists_sound h
  rw [hprints]
  refine ⟨?_, ?_, ?_⟩
  · intro m hm
    obtain ⟨t, hne, hcopy, hlength, -⟩ := exists_copy_of_mem_mappings hm
    exact (hsound.copies t m.source hcopy hne).length.trans hlength.symm
  · obtain ⟨-, hapart, -⟩ := hsound.moves {} rfl
    have htrans : Trans (fun m n : Mapping => m.generated.stop < n.generated.start.offset)
        (fun m n : Mapping => m.generated.stop < n.generated.start.offset)
        (fun m n : Mapping => m.generated.stop < n.generated.start.offset) :=
      ⟨fun {l m n} hlm hmn => Nat.lt_of_lt_of_le hlm
        (Nat.le_trans (Nat.le_add_right _ _) (Nat.le_of_lt hmn))⟩
    exact (isChain_mappingsFrom (fun c hc => (mem_layout hc).1) hapart).pairwise
  · intro m hm k hk
    obtain ⟨t, hne, hcopy, hlength, hslice⟩ := exists_copy_of_mem_mappings hm
    have hat := hsound.copies t m.source hcopy hne
    have hkt : k < (bytes t).length := by
      rw [length_bytes, ← hat.length]
      exact hk
    refine ⟨(bytes t)[k], ?_, ?_⟩
    · rw [getElem?_bytes_of_slice? hat.slice (Nat.add_lt_add_left hk _), List.getElem?_eq_getElem hkt]
    · have hkm : k < m.generated.length := by
        rw [hlength, ← length_bytes]
        exact hkt
      rw [getElem?_bytes_of_slice? hslice (Nat.add_lt_add_left hkm _), List.getElem?_eq_getElem hkt]

theorem isFaithful_html (h : e.compileWhile mayGoOn r = .ok c) :
    IsFaithful r.source.text c.html.code c.html.mappings := by
  have hcopy := ParsedDocument.isMaskedCopy_parse r.fileKind r.source
  rw [← ParsedDocument.html_compileWhile h] at hcopy
  refine ⟨?_, ?_, ?_⟩
  · intro m hm
    rw [hcopy.generated m hm]
  · refine hcopy.apart.imp_of_mem ?_
    intro m n hm hn hgap
    rw [hcopy.generated m hm, hcopy.generated n hn]
    exact hgap
  · intro m hm k hk
    have hmarkup := (hcopy.covers _).mp ⟨m, hm, Span.contains_eq_true.mpr
      ⟨Nat.le_add_right _ k, Nat.add_lt_add_left hk _⟩⟩
    have hlt : m.source.start.offset + k < (bytes r.source.text).length := by
      rw [length_bytes]
      exact ParsedDocument.lt_size_of_inMarkup hmarkup
    refine ⟨(bytes r.source.text)[m.source.start.offset + k], List.getElem?_eq_getElem hlt, ?_⟩
    rw [hcopy.generated m hm, hcopy.bytes, Projection.maskedBytes, List.getElem?_mapIdx,
      List.getElem?_eq_getElem hlt, Option.map_some, if_pos hmarkup]

/-- An offset that is moved from a source to one of its projections is moved back to where it was, and
    unless it is at the end of the mapping that it is moved along, the byte there is the same. -/
theorem sourceIndex?_generatedIndex? (h : e.compileWhile mayGoOn r = .ok c) {p : Projection}
    (hp : p = c.csharpProjection ∨ p = c.htmlProjection) {i j : Nat}
    (hij : generatedIndex? p.mappings i .strict = some j) :
    sourceIndex? p.mappings j = some i ∧
      ∀ m, p.mappings.find? (·.source.touches i) = some m → i < m.source.stop →
        ∃ b, (bytes r.source.text)[i]? = some b ∧ (bytes p.generated.code)[j]? = some b := by
  have hfaithful : IsFaithful r.source.text p.generated.code p.mappings := by
    rcases hp with rfl | rfl
    · exact isFaithful_csharp h
    · exact isFaithful_html h
  obtain ⟨m, hm, hfind, k, hk, rfl, rfl⟩ := hfaithful.generatedIndex?_eq_some hij
  refine ⟨hfaithful.sourceIndex?_eq hm hk, ?_⟩
  intro m' hfind' hlt
  obtain rfl : m = m' := Option.some.inj (hfind.symm.trans hfind')
  exact hfaithful.same m hm k (Nat.lt_of_add_lt_add_left hlt)

/-- The expression of a page is moved to the generated C# and back. -/
theorem sourceIndex?_generatedIndex?_expression :
    ∃ c, bare.compileWhile (fun _ => true) ⟨.anonymous "@x", .legacy, []⟩ = .ok c ∧
      generatedIndex? c.csharpProjection.mappings 1 .strict = some 598 ∧
      sourceIndex? c.csharpProjection.mappings 598 = some 1 ∧
      ∀ m, c.csharpProjection.mappings.find? (·.source.touches 1) = some m → 1 < m.source.stop →
        ∃ b, (bytes "@x".toList)[1]? = some b ∧
          (bytes c.csharpProjection.generated.code)[598]? = some b := by
  obtain ⟨c, hc⟩ : ∃ c, bare.compileWhile (fun _ => true) ⟨.anonymous "@x", .legacy, []⟩ = .ok c :=
    ⟨_, rfl⟩
  have hindex : (bare.compileWhile (fun _ => true) ⟨.anonymous "@x", .legacy, []⟩).toOption.bind
      (fun c => generatedIndex? c.csharpProjection.mappings 1 .strict) = some 598 := by
    decide +kernel
  rw [hc] at hindex
  exact ⟨c, hc, hindex, sourceIndex?_generatedIndex? hc (Or.inl rfl) hindex⟩

end Engine

end RazorLang
