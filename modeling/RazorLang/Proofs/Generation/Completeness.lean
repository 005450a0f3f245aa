import RazorLang.Proofs.Engine
import RazorLang.Proofs.Generation.Balance
import RazorLang.Proofs.Generation.Layout

/-!
# Whatever is emitted is mapped

`exists_copy_of_mem_mappings` finds the copy that a mapping belongs to. Here is the way back: each piece of
the source that an emission makes the code copy (`Emission.shown`) is copied where the emission is printed
(`Emission.copy_mem_printAll`), and each copy has a mapping (`exists_mapping_of_copy`). So a document maps
whatever it emits (`Engine.exists_mapping_of_shown`).
-/

namespace RazorLang

/-! ## Copies have mappings -/

/-- A chunk that is copied has a mapping. -/
theorem exists_mem_mappingsFrom {l : Location} {cs : List Chunk} {c : Chunk} {span : Span}
    (h : c ∈ cs) (hsource : c.source = some span) : ∃ m ∈ mappingsFrom l cs, m.source = span := by
  induction cs generalizing l with
  | nil => exact absurd h List.not_mem_nil
  | cons d cs ih =>
      rw [mappingsFrom]
      rcases List.mem_cons.mp h with rfl | h
      · rw [hsource]
        exact ⟨_, List.mem_cons_self, rfl⟩
      · obtain ⟨m, hm, rfl⟩ := ih (l := l.advance d.text) h
        cases d.source with
        | none => exact ⟨m, hm, rfl⟩
        | some source => exact ⟨m, List.mem_cons_of_mem _ hm, rfl⟩

theorem mem_step_copy (o : Options) (s : PrintState) {t : Text} (span : Span) (hne : t ≠ []) :
    { text := t, source := some span } ∈ (s.step o (.copy t span)).2 := by
  unfold PrintState.step
  dsimp only
  rw [if_neg fun hempty => hne (List.isEmpty_iff.mp hempty)]
  exact List.mem_append_right _ List.mem_cons_self

/-- A text that is copied and not empty is a chunk. -/
theorem exists_mem_layout {o : Options} {s : PrintState} {ps : List Print} {t : Text} {span : Span}
    (h : .copy t span ∈ ps) (hne : t ≠ []) : ∃ c ∈ layout o s ps, c.source = some span := by
  induction ps generalizing s with
  | nil => exact absurd h List.not_mem_nil
  | cons p ps ih =>
      rcases List.mem_cons.mp h with rfl | h
      · exact ⟨_, List.mem_append_left _ (mem_step_copy o s span hne), rfl⟩
      · obtain ⟨c, hc, hsource⟩ := ih (s := (s.step o p).1) h
        exact ⟨c, List.mem_append_right _ hc, hsource⟩

/-- A text that is copied and not empty has a mapping. -/
theorem exists_mapping_of_copy {o : Options} {ps : List Print} {t : Text} {span : Span}
    (h : .copy t span ∈ ps) (hne : t ≠ []) :
    ∃ m ∈ (Generated.ofPrints o ps).mappings, m.source = span := by
  obtain ⟨c, hc, hsource⟩ := exists_mem_layout h hne
  exact exists_mem_mappingsFrom hc hsource

/-! ## Emissions are copied -/

namespace Emission

/-- The pieces of the source that are copied where an emission is printed; blank code is left out. -/
def shown : Emission → List (Text × Span)
  | expression t span | statement t span => if Text.isBlank t then [] else [(t, span)]
  | helperProperty _ _ _ value | setAttribute _ value | key value | reference _ value
  | callback _ value => codeOfValue value
  | _ => []

theorem printValue_of_mem {value : AttributeCode} {c : Text × Span} (h : c ∈ codeOfValue value) :
    printValue value = .copy c.1 c.2 := by
  cases value with
  | isSet => exact absurd h List.not_mem_nil
  | literal t => exact absurd h List.not_mem_nil
  | code t span => rw [List.mem_singleton.mp h, printValue]

theorem copy_mem_printExpression (k : BodyKind) (s : BodyState) {t : Text} (span : Span)
    (h : Text.isBlank t = false) : .copy t span ∈ (printExpression k s t span).2 := by
  rw [printExpression, if_neg (by rw [h]; exact Bool.false_ne_true)]
  cases k.designTime with
  | true => simp
  | false => cases k.component <;> simp

theorem mem_ite_isBlank {t : Text} {span : Span} {c : Text × Span} (h : c ∈ if Text.isBlank t then [] else [(t, span)]) :
    Text.isBlank t = false ∧ c = (t, span) := by
  cases hblank : Text.isBlank t with
  | true =>
      rw [hblank] at h
      exact absurd h List.not_mem_nil
  | false =>
      rw [hblank] at h
      exact ⟨rfl, List.mem_singleton.mp h⟩

theorem copy_mem_print (k : BodyKind) (s : BodyState) {e : Emission} {c : Text × Span}
    (h : c ∈ e.shown) : .copy c.1 c.2 ∈ (print k s e).2 := by
  cases e with
  | expression t span =>
      obtain ⟨hblank, rfl⟩ := mem_ite_isBlank h
      exact copy_mem_printExpression k s span hblank
  | statement t span =>
      obtain ⟨hblank, rfl⟩ := mem_ite_isBlank h
      rw [print, printCode, hblank]
      exact List.mem_cons_of_mem _ List.mem_cons_self
  | helperProperty type property given value =>
      rw [print, printValue_of_mem h]
      exact List.mem_cons_of_mem _ List.mem_cons_self
  | setAttribute name value =>
      rw [print, printValue_of_mem h]
      exact List.mem_cons_of_mem _ List.mem_cons_self
  | key value =>
      rw [print, printValue_of_mem h]
      exact List.mem_cons_of_mem _ List.mem_cons_self
  | callback name value =>
      rw [print, printValue_of_mem h]
      exact List.mem_cons_of_mem _ List.mem_cons_self
  | reference component value =>
      show .copy c.1 c.2 ∈ printReference s component value
      unfold printReference
      rw [printValue_of_mem h]
      exact List.mem_cons_of_mem _ List.mem_cons_self
  | markup _ | sectionStart _ | sectionEnd | helperStart _ _ | helperContentEnd | helperCreate _
  | helperAttribute _ _ | helperEnd | elementStart _ | elementEnd | componentStart _ | componentEnd
  | fragmentStart _ | fragmentEnd => exact absurd h List.not_mem_nil

theorem copy_mem_printAll (k : BodyKind) (s : BodyState) {es : List Emission} {e : Emission}
    {c : Text × Span} (he : e ∈ es) (hc : c ∈ e.shown) : .copy c.1 c.2 ∈ printAll k s es := by
  induction es generalizing s with
  | nil => exact absurd he List.not_mem_nil
  | cons f es ih =>
      rw [printAll]
      rcases List.mem_cons.mp he with rfl | he
      · exact List.mem_append_left _ (copy_mem_print k s hc)
      · exact List.mem_append_right _ (ih _ he)

/-- Putting markup together keeps whatever is copied. -/
theorem mem_joinMarkup_of_shown {es : List Emission} {e : Emission} {c : Text × Span} (he : e ∈ es)
    (hc : c ∈ e.shown) : e ∈ joinMarkup es := by
  have hnot (t : Text) : e ≠ markup t := by
    rintro rfl
    exact absurd hc List.not_mem_nil
  induction es with
  | nil => exact absurd he List.not_mem_nil
  | cons f es ih =>
      rcases joinMarkup_cons f es with ⟨t, u, behind, rfl, hjoin, h⟩ | ⟨rfl, h⟩ | h
      · have hrest := ih ((List.mem_cons.mp he).resolve_left (hnot t))
        rw [hjoin] at hrest
        rw [h]
        exact List.mem_cons_of_mem _ ((List.mem_cons.mp hrest).resolve_left (hnot u))
      · rw [h]
        exact ih ((List.mem_cons.mp he).resolve_left (hnot []))
      · rw [h]
        exact List.mem_cons.mpr ((List.mem_cons.mp he).imp_right ih)

end Emission

/-! ## A document maps what it emits -/

/-- Whatever a document emits is copied in its method. -/
theorem PageModel.copy_mem_prints {p : PageModel} {e : Emission} {c : Text × Span}
    (he : e ∈ p.emissions) (hc : c ∈ e.shown) : .copy c.1 c.2 ∈ p.prints := by
  have hbody := Emission.copy_mem_printAll ⟨p.isComponent, p.options.designTime⟩ {} he hc
  have hmethod : .copy c.1 c.2 ∈ p.printMethod := by
    unfold printMethod
    split
    · exact List.mem_append_left _ (List.mem_append_right _ hbody)
    · exact List.mem_append_left _ (List.mem_append_left _ (List.mem_append_right _ hbody))
  simp only [prints, List.mem_append, hmethod, true_or, or_true]

/-- What the document of a request emits has a mapping in the C# that the request is compiled to. -/
theorem Engine.exists_mapping_of_shown {e : Engine} {mayGoOn : Phase → Bool} {r : Request}
    {c : Compilation} (h : e.compileWhile mayGoOn r = .ok c) {f : Emission} {piece : Text × Span}
    (hf : f ∈ (Emitted.ofTree c.document.fileKind.isComponent false c.document.root).whole)
    (hpiece : piece ∈ f.shown) (hne : piece.1 ≠ []) :
    ∃ m ∈ c.csharp.mappings, m.source = piece.2 := by
  obtain ⟨-, hcsharp, -, hdocument, -⟩ := compileWhile_eq_ok h
  obtain ⟨lead, hprints⟩ := PageModel.toCSharp_eq_ok hcsharp
  rw [hdocument] at hf
  have hcopy : .copy piece.1 piece.2 ∈ (e.modelOf r).prints :=
    PageModel.copy_mem_prints (Emission.mem_joinMarkup_of_shown hf hpiece) hpiece
  rw [hprints]
  exact exists_mapping_of_copy (List.mem_append_right _ hcopy) hne

end RazorLang
