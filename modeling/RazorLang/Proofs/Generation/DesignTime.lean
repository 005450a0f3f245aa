import RazorLang.Proofs.Engine
import RazorLang.Proofs.Generation.Layout

/-!
# Code for an editor maps the code that runs

The C# that is generated for an editor leaves markup out, calls nothing for an expression, and declares a field
more, so it differs from the C# that runs nearly everywhere. What both map is the same: the spans that mappings
lead back to are those of the copies among the instructions, whatever is printed around them
(`sources_ofPrints`), and each emission is printed with the same copies for either purpose, whatever has
been numbered before it (`Emission.sources_print`).

Main statement: `Engine.sources_compileWhile` — a request is compiled for an editor exactly if it is compiled
to be run, and then the mappings of both lead back to the same spans in the same order.
-/

namespace RazorLang

open Text

variable {ps qs : List Print}

/-! ## The spans that are mapped -/

/-- The span that an instruction maps; a copy of nothing is not mapped. -/
def Print.source? : Print → Option Span
  | .copy t source => if t.isEmpty then none else some source
  | _ => none

/-- The spans that some instructions map, in order. -/
def Print.sources (ps : List Print) : List Span := ps.filterMap source?

theorem Print.sources_append (ps qs : List Print) : sources (ps ++ qs) = sources ps ++ sources qs :=
  List.filterMap_append

/-- The spans that mappings lead back to. -/
def Generated.sources (g : Generated) : List Span := g.mappings.map (·.source)

theorem map_source_mappingsFrom (l : Location) (cs : List Chunk) :
    (mappingsFrom l cs).map (·.source) = cs.filterMap (·.source) := by
  induction cs generalizing l with
  | nil => rfl
  | cons c cs ih =>
      rw [mappingsFrom]
      cases hsource : c.source with
      | none => rw [List.filterMap_cons_none hsource, ih]
      | some source => rw [List.filterMap_cons_some hsource, List.map_cons, ih]

namespace PrintState

theorem filterMap_source_chunk (t : Text) : (chunk t).filterMap (·.source) = [] := by
  rw [chunk]
  split
  · rfl
  · rfl

/-- The indentation and the line breaks around a copy are not mapped. -/
theorem filterMap_source_step (o : Options) (s : PrintState) (p : Print) :
    (s.step o p).2.filterMap (·.source) = p.source?.toList := by
  cases p with
  | write t =>
      by_cases ht : t.isEmpty = true
      · simp [step, Print.source?, ht]
      · simp [step, Print.source?, ht, filterMap_source_chunk]
  | line t =>
      by_cases ht : t.isEmpty = true
      · simp [step, Print.source?, ht, filterMap_source_chunk]
      · simp [step, Print.source?, ht, filterMap_source_chunk]
  | copy t source =>
      by_cases ht : t.isEmpty = true
      · simp [step, Print.source?, ht, filterMap_source_chunk]
      · simp [step, Print.source?, ht, filterMap_source_chunk]
  | freshLine =>
      by_cases hs : s.atLineStart = true
      · simp [step, Print.source?, hs]
      · simp [step, Print.source?, hs, filterMap_source_chunk]
  | indent => rfl
  | dedent => rfl

end PrintState

theorem filterMap_source_layout (o : Options) (s : PrintState) (ps : List Print) :
    (layout o s ps).filterMap (·.source) = Print.sources ps := by
  induction ps generalizing s with
  | nil => rfl
  | cons p ps ih =>
      show ((s.step o p).2 ++ layout o (s.step o p).1 ps).filterMap (·.source) = _
      rw [List.filterMap_append, PrintState.filterMap_source_step, ih]
      show p.source?.toList ++ ps.filterMap Print.source? = (p :: ps).filterMap Print.source?
      cases hp : p.source? with
      | none => rw [List.filterMap_cons_none hp, Option.toList_none, List.nil_append]
      | some source => rw [List.filterMap_cons_some hp, Option.toList_some, List.singleton_append]

/-- Printed code maps what its instructions copy, in their order. -/
theorem sources_ofPrints (o : Options) (ps : List Print) :
    (Generated.ofPrints o ps).sources = Print.sources ps :=
  (map_source_mappingsFrom _ _).trans (filterMap_source_layout o {} ps)

/-! ## The body -/

namespace Emission

/-- For whichever purpose an emission is printed, and whatever has been numbered before it, the same spans are
    mapped. -/
theorem sources_print (k k' : BodyKind) (s s' : BodyState) (e : Emission) :
    Print.sources (print k s e).2 = Print.sources (print k' s' e).2 := by
  have hmarkup (k : BodyKind) (s : BodyState) (t : Text) : Print.sources (printMarkup k s t).2 = [] := by
    rw [printMarkup]
    split
    · rfl
    · split
      · rfl
      · rfl
  have hexpression (k : BodyKind) (s : BodyState) (t : Text) (span : Span) :
      Print.sources (printExpression k s t span).2 =
        if isBlank t then [] else Print.sources [.copy t span] := by
    rw [printExpression]
    split
    · rfl
    · split
      · rfl
      · split
        · rfl
        · rfl
  cases e with
  | markup t => exact (hmarkup k s t).trans (hmarkup k' s' t).symm
  | expression t span => exact (hexpression k s t span).trans (hexpression k' s' t span).symm
  | helperProperty type property given value => cases value <;> rfl
  | setAttribute name value => cases value <;> rfl
  | key value => cases value <;> rfl
  | reference component value => cases value <;> rfl
  | callback name value => cases value <;> rfl
  | statement _ _ | sectionStart _ | sectionEnd | helperStart _ _ | helperContentEnd | helperCreate _
  | helperAttribute _ _ | helperEnd | elementStart _ | elementEnd | componentStart _ | componentEnd
  | fragmentStart _ | fragmentEnd => rfl

theorem sources_printAll (k k' : BodyKind) (s s' : BodyState) (es : List Emission) :
    Print.sources (printAll k s es) = Print.sources (printAll k' s' es) := by
  induction es generalizing s s' with
  | nil => rfl
  | cons e es ih =>
      show Print.sources ((print k s e).2 ++ printAll k (print k s e).1 es) =
        Print.sources ((print k' s' e).2 ++ printAll k' (print k' s' e).1 es)
      rw [Print.sources_append, Print.sources_append, sources_print k k' s s' e, ih]

end Emission

/-! ## The whole document -/

/-- What comes after a step is the same if it is so whatever the step gives. -/
theorem Except.map_bind_congr {ε α β γ : Type} {f f' : α → Except ε β} {g : β → γ} (x : Except ε α)
    (h : ∀ a, (f a).map g = (f' a).map g) : (x >>= f).map g = (x >>= f').map g := by
  show g <$> (x >>= f) = g <$> (x >>= f')
  rw [map_bind, map_bind]
  exact bind_congr h

/-- Two computations that agree in what is taken from their results either fail alike or both give a
    result. -/
theorem Except.map_eq_map {ε α β : Type} {g : α → β} {x x' : Except ε α} (h : x.map g = x'.map g) :
    (∃ fault, x = .error fault ∧ x' = .error fault) ∨ ∃ a a', x = .ok a ∧ x' = .ok a' ∧ g a = g a' := by
  cases x with
  | error fault =>
      cases x' with
      | error fault' => exact Or.inl ⟨fault, rfl, by rw [Except.error.inj h]⟩
      | ok a' => exact nomatch h
  | ok a =>
      cases x' with
      | error fault' => exact nomatch h
      | ok a' => exact Or.inr ⟨a, a', rfl, rfl, Except.ok.inj h⟩

/-- The options for code of the other purpose. -/
def Options.inMode (o : Options) (designTime : Bool) : Options := { o with designTime }

namespace PageModel

/-- The document for code of the other purpose. -/
def inMode (p : PageModel) (designTime : Bool) : PageModel :=
  { p with options := p.options.inMode designTime }

theorem sources_printMethod (p : PageModel) (b b' : Bool) :
    Print.sources (p.inMode b).printMethod = Print.sources (p.inMode b').printMethod := by
  have hbody := Emission.sources_printAll ⟨p.isComponent, b⟩ ⟨p.isComponent, b'⟩ {} {} p.emissions
  have hcomponent (b : Bool) : (p.inMode b).isComponent = p.isComponent := rfl
  rw [printMethod, printMethod, hcomponent, hcomponent]
  split
  · simp only [Print.sources_append]
    exact congrArg (_ ++ · ++ _) hbody
  · simp only [Print.sources_append]
    exact congrArg (_ ++ _ ++ · ++ _ ++ _) hbody

/-- The field that only code for an editor has is not mapped, and the method maps the same in both. -/
theorem sources_prints (p : PageModel) (b b' : Bool) :
    Print.sources (p.inMode b).prints = Print.sources (p.inMode b').prints := by
  have hfield (b : Bool) : Print.sources (p.inMode b).printDesignTimeField = [] := by
    cases b with
    | true => rfl
    | false => rfl
  simp only [prints, Print.sources_append, hfield, p.sources_printMethod b b']
  rfl

/-- Either there is a checksum line for both or for none. -/
theorem sources_toCSharp (p : PageModel) (b b' : Bool) :
    (p.inMode b).toCSharp.map Generated.sources = (p.inMode b').toCSharp.map Generated.sources := by
  obtain ⟨lead, hlead⟩ : ∃ lead : Except Fault (List Print), ∀ b, (p.inMode b).toCSharp =
      lead >>= fun lead => .ok (.ofPrints (p.options.inMode b) (lead ++ (p.inMode b).prints)) := by
    refine ⟨if p.options.suppressChecksum then pure []
      else do pure [.line (← checksumLine p.document.source p.options.checksum)], fun b => ?_⟩
    show (if p.options.suppressChecksum = true then _ else _) = _
    by_cases hsuppress : p.options.suppressChecksum = true
    · rw [if_pos hsuppress, if_pos hsuppress]
      rfl
    · rw [if_neg hsuppress, if_neg hsuppress, bind_assoc]
      rfl
  rw [hlead, hlead]
  refine Except.map_bind_congr lead fun lead => congrArg Except.ok ?_
  rw [sources_ofPrints, sources_ofPrints, Print.sources_append, Print.sources_append,
    p.sources_prints b b']

end PageModel

namespace Engine

/-- The engine for code of the other purpose. -/
def inMode (e : Engine) (designTime : Bool) : Engine := { e with options := e.options.inMode designTime }

/-- What a compilation for an editor maps is what a compilation to be run maps: the same spans in the same
    order. Where one of them fails, so does the other, and in the same way. -/
theorem sources_compileWhile (e : Engine) (mayGoOn : Phase → Bool) (r : Request) :
    ((e.inMode true).compileWhile mayGoOn r).map (·.csharp.sources) =
      ((e.inMode false).compileWhile mayGoOn r).map (·.csharp.sources) := by
  have hcsharp := (e.modelOf r).sources_toCSharp true false
  -- Up to the generation of C# both do the same.
  refine Except.map_bind_congr _ fun _ => Except.map_bind_congr _ fun _ => Except.map_bind_congr _ fun _ =>
    Except.map_bind_congr _ fun _ => Except.map_bind_congr _ fun _ => ?_
  show (during _ ((e.modelOf r).inMode true).toCSharp >>= _).map _ =
    (during _ ((e.modelOf r).inMode false).toCSharp >>= _).map _
  rcases Except.map_eq_map hcsharp with ⟨fault, htrue, hfalse⟩ | ⟨g, g', htrue, hfalse, hsources⟩
  · rw [htrue, hfalse]
    rfl
  · rw [htrue, hfalse]
    show (enter mayGoOn .generateHtml >>= _).map _ = (enter mayGoOn .generateHtml >>= _).map _
    exact Except.map_bind_congr _ fun _ => congrArg Except.ok hsources

end Engine

end RazorLang
