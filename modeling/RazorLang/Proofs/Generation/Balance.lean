import RazorLang.Generation.Emission
import RazorLang.Proofs.Tree.Nodes

/-!
# Emissions are balanced

What a tree emits closes everything that it opens, and whatever code is in it comes from the tree. Main
statements: `Emitted.nested_ofTree` — it is made of constructs that are nested in each other — and
`Tree.balanced_emissions`. The route: one lemma for each construct that puts emissions around others, and an
induction over the tree; what is nested is then level, which means that it leads from every depth
(`Emission.depth?`) back to that depth.
-/

namespace RazorLang

open Text

/-! ## Depth -/

namespace Emission

/-- The emission opens a nested function. -/
def opens : Emission → Bool
  | sectionStart _ | helperStart .. | fragmentStart _ => true
  | _ => false

/-- The emission closes a nested function. -/
def closes : Emission → Bool
  | sectionEnd | helperContentEnd | fragmentEnd => true
  | _ => false

/-- How many nested functions are open behind an emission, unless it closes one that is not. -/
def depth? (d : Nat) (e : Emission) : Option Nat :=
  if e.opens then some (d + 1)
  else if e.closes then (if d = 0 then none else some (d - 1))
  else some d

section Depth

variable {e : Emission} {d d' : Nat} (h : e.depth? d = some d')
include h

theorem depth_eq_of_opens (hopens : e.opens = true) : d' = d + 1 := by
  rw [depth?, if_pos hopens] at h
  exact (Option.some.inj h).symm

theorem depth_eq_of_closes (hopens : e.opens = false) (hcloses : e.closes = true) : d = d' + 1 := by
  rw [depth?, hopens, hcloses] at h
  obtain ⟨hd, hrest⟩ := Option.ite_none_left_eq_some.mp h
  have := Option.some.inj hrest
  omega

theorem depth_eq_of_flat (hopens : e.opens = false) (hcloses : e.closes = false) : d' = d := by
  rw [depth?, hopens, hcloses] at h
  exact (Option.some.inj h).symm

end Depth

/-- The text of a value that is code, with its span. -/
def codeOfValue : AttributeCode → List (Text × Span)
  | .code t span => [(t, span)]
  | _ => []

/-- The pieces of the source that an emission makes the code copy. -/
def copies : Emission → List (Text × Span)
  | expression t span | statement t span => [(t, span)]
  | helperProperty _ _ _ value | setAttribute _ value | key value | reference _ value
  | callback _ value => codeOfValue value
  | _ => []

/-- Emissions that close what they open and nothing else, and copy only such pieces of the source as
    `P` holds of. -/
structure Balanced (P : Text → Span → Prop) (es : List Emission) : Prop where
  level : ∀ d, es.foldlM depth? d = some d
  copies : ∀ e ∈ es, ∀ c ∈ e.copies, P c.1 c.2

variable {P : Text → Span → Prop} {es fs : List Emission} {e : Emission}

theorem Balanced.nil : Balanced P [] := ⟨fun _ => rfl, fun _ h => nomatch h⟩

theorem Balanced.append (h : Balanced P es) (h' : Balanced P fs) : Balanced P (es ++ fs) := by
  constructor
  · intro d
    rw [List.foldlM_append, h.level d]
    exact h'.level d
  · intro e he
    rcases List.mem_append.mp he with he | he
    · exact h.copies e he
    · exact h'.copies e he

/-- An emission that opens and closes nothing. -/
theorem balanced_flat (hopens : e.opens = false) (hcloses : e.closes = false)
    (hcopies : ∀ c ∈ e.copies, P c.1 c.2) : Balanced P [e] := by
  constructor
  · intro d
    show (e.depth? d).bind some = some d
    rw [depth?, hopens, hcloses]
    rfl
  · intro f hf
    rw [List.mem_singleton.mp hf]
    exact hcopies

/-- Emissions between one that opens a function and one that closes it. -/
theorem Balanced.enclosed {first last : Emission} (h : Balanced P es) (hfirst : first.opens = true)
    (hlast : last.opens = false ∧ last.closes = true) (hnone : first.copies = [] ∧ last.copies = []) :
    Balanced P (first :: es ++ [last]) := by
  constructor
  · intro d
    rw [List.cons_append, List.foldlM_cons, depth?, if_pos hfirst]
    show (es ++ [last]).foldlM depth? (d + 1) = some d
    rw [List.foldlM_append, h.level]
    show (last.depth? (d + 1)).bind some = some d
    rw [depth?, hlast.1, hlast.2]
    rfl
  · intro e he
    rcases List.mem_append.mp he with he | he
    · rcases List.mem_cons.mp he with rfl | he
      · rw [hnone.1]
        exact fun c hc => absurd hc List.not_mem_nil
      · exact h.copies e he
    · rw [List.mem_singleton.mp he, hnone.2]
      exact fun c hc => absurd hc List.not_mem_nil

/-- An emission is put together with the markup behind it, or left out as empty markup, or kept. -/
theorem joinMarkup_cons (e : Emission) (es : List Emission) :
    (∃ t u behind, e = markup t ∧ joinMarkup es = markup u :: behind ∧
      joinMarkup (e :: es) = markup (t ++ u) :: behind) ∨
    (e = markup [] ∧ joinMarkup (e :: es) = joinMarkup es) ∨
    joinMarkup (e :: es) = e :: joinMarkup es := by
  cases e with
  | markup t =>
      rw [joinMarkup]
      split
      · next u behind hjoin => exact Or.inl ⟨t, u, behind, rfl, hjoin, rfl⟩
      · split
        · next hempty => exact Or.inr (Or.inl ⟨by rw [List.isEmpty_iff.mp hempty], rfl⟩)
        · exact Or.inr (Or.inr rfl)
  | _ => exact Or.inr (Or.inr rfl)

/-- What passes over markup passes over it in one piece as it does over its parts. -/
theorem foldlM_joinMarkup {σ : Type} {f : σ → Emission → Option σ}
    (hmarkup : ∀ d t, f d (markup t) = some d) (es : List Emission) (d : σ) :
    (joinMarkup es).foldlM f d = es.foldlM f d := by
  induction es generalizing d with
  | nil => rfl
  | cons e es ih =>
      rcases joinMarkup_cons e es with ⟨t, u, behind, rfl, hjoin, h⟩ | ⟨rfl, h⟩ | h
      · rw [h, List.foldlM_cons, List.foldlM_cons, hmarkup, hmarkup]
        show behind.foldlM f d = es.foldlM f d
        rw [← ih d, hjoin, List.foldlM_cons, hmarkup]
        rfl
      · rw [h, List.foldlM_cons, hmarkup]
        exact ih d
      · rw [h, List.foldlM_cons, List.foldlM_cons]
        cases f d e with
        | none => rfl
        | some d' => exact ih d'

/-- Putting markup together adds no other emission. -/
theorem mem_joinMarkup {es : List Emission} {e : Emission} (he : e ∈ joinMarkup es) :
    e ∈ es ∨ ∃ t, e = markup t := by
  induction es with
  | nil => exact Or.inl he
  | cons f es ih =>
      have hrest (he : e ∈ joinMarkup es) : e ∈ f :: es ∨ ∃ t, e = markup t :=
        (ih he).imp_left (List.mem_cons_of_mem f)
      rcases joinMarkup_cons f es with ⟨t, u, behind, rfl, hjoin, h⟩ | ⟨rfl, h⟩ | h
      · rw [h] at he
        rcases List.mem_cons.mp he with rfl | he
        · exact Or.inr ⟨_, rfl⟩
        · exact hrest (by rw [hjoin]; exact List.mem_cons_of_mem _ he)
      · rw [h] at he
        exact hrest he
      · rw [h] at he
        rcases List.mem_cons.mp he with rfl | he
        · exact Or.inl (List.mem_cons_self ..)
        · exact hrest he

theorem Balanced.joinMarkup (h : Balanced P es) : Balanced P (joinMarkup es) := by
  constructor
  · intro d
    rw [foldlM_joinMarkup fun _ _ => rfl]
    exact h.level d
  · intro e he
    rcases mem_joinMarkup he with he | ⟨t, rfl⟩
    · exact h.copies e he
    · exact fun c hc => absurd hc List.not_mem_nil

/-! ## Nesting -/

/-- The emission stands by itself. In components there is nothing of the tag helpers of pages, in pages
    nothing of frames. -/
def standsAlone (component : Bool) : Emission → Bool
  | markup _ | expression .. | statement .. => true
  | helperCreate _ | helperProperty .. | helperAttribute .. | helperEnd => !component
  | setAttribute .. | key _ | reference .. | callback .. => component
  | _ => false

/-- The two ends of the constructs that pages and components have. -/
inductive Encloses : Bool → Emission → Emission → Prop where
  | ofSection (name : Text) : Encloses false (sectionStart name) sectionEnd
  | ofHelper (tag : Text) (mode : TagMode) : Encloses false (helperStart tag mode) helperContentEnd
  | ofElement (name : Text) : Encloses true (elementStart name) elementEnd
  | ofComponent (type : Text) : Encloses true (componentStart type) componentEnd
  | ofFragment (name : Text) : Encloses true (fragmentStart name) fragmentEnd

/-- Emissions of a page or of a component that are nested in each other, and copy only such pieces of the
    source as `P` holds of. -/
inductive Nested (component : Bool) (P : Text → Span → Prop) : List Emission → Prop where
  | nil : Nested component P []
  | append {es fs : List Emission} : Nested component P es → Nested component P fs →
      Nested component P (es ++ fs)
  | single {e : Emission} : e.standsAlone component = true → (∀ c ∈ e.copies, P c.1 c.2) →
      Nested component P [e]
  | enclosed {first last : Emission} {es : List Emission} : Encloses component first last →
      Nested component P es → Nested component P (first :: es ++ [last])

variable {component : Bool}

theorem Nested.flatMap {α : Type} {f : α → List Emission} {as : List α}
    (h : ∀ a ∈ as, Nested component P (f a)) : Nested component P (as.flatMap f) := by
  induction as with
  | nil => exact .nil
  | cons a as ih =>
      rw [List.flatMap_cons]
      exact (h a (List.mem_cons_self ..)).append
        (ih fun b hb => h b (List.mem_cons_of_mem a hb))

theorem nested_filterMap {α : Type} {f : α → Option Emission} {as : List α}
    (h : ∀ a ∈ as, ∀ e ∈ f a, Nested component P [e]) : Nested component P (as.filterMap f) := by
  induction as with
  | nil => exact .nil
  | cons a as ih =>
      have hrest := ih fun b hb => h b (List.mem_cons_of_mem a hb)
      rw [List.filterMap_cons]
      split
      · exact hrest
      · next e he => exact (h a (List.mem_cons_self ..) e he).append hrest

/-- An emission that stands by itself and copies nothing. -/
theorem nested_plain (hstands : e.standsAlone component = true) (hnone : e.copies = []) :
    Nested component P [e] :=
  .single hstands (by rw [hnone]; exact fun c hc => absurd hc List.not_mem_nil)

/-- What is nested closes what it opens. -/
theorem Nested.balanced (h : Nested component P es) : Balanced P es := by
  induction h with
  | nil => exact .nil
  | append _ _ ih ih' => exact ih.append ih'
  | single hstands hcopies =>
      rename_i e
      have hflat : e.opens = false ∧ e.closes = false := by
        cases e with
        | sectionStart | sectionEnd | helperStart | helperContentEnd | fragmentStart
        | fragmentEnd => exact absurd hstands Bool.false_ne_true
        | _ => exact ⟨rfl, rfl⟩
      exact balanced_flat hflat.1 hflat.2 hcopies
  | enclosed hencloses _ ih =>
      have hnone (c : Text × Span) (hc : c ∈ []) : P c.1 c.2 := absurd hc List.not_mem_nil
      cases hencloses with
      | ofSection | ofHelper | ofFragment => exact ih.enclosed rfl ⟨rfl, rfl⟩ ⟨rfl, rfl⟩
      | ofElement name =>
          exact ((balanced_flat (e := elementStart name) rfl rfl hnone).append ih).append
            (balanced_flat rfl rfl hnone)
      | ofComponent type =>
          exact ((balanced_flat (e := componentStart type) rfl rfl hnone).append ih).append
            (balanced_flat rfl rfl hnone)

end Emission

/-! ## The parts of an element -/

namespace ElementParts

variable {α : Type} {children : List (Tree × α)}

theorem withoutEndTag_startTag (startTag : Option Tree) (nodes : List (Tree × α)) :
    (withoutEndTag startTag nodes).startTag = startTag := by
  unfold withoutEndTag
  split
  · split <;> rfl
  · rfl

theorem mem_body_withoutEndTag {startTag : Option Tree} {nodes : List (Tree × α)} {x : Tree × α}
    (h : x ∈ (withoutEndTag startTag nodes).body) : x ∈ nodes := by
  unfold withoutEndTag at h
  split at h
  · split at h
    · exact List.dropLast_subset _ h
    · exact h
  · exact absurd h List.not_mem_nil

/-- The body of an element is some of its children. -/
theorem mem_body {x : Tree × α} (h : x ∈ (ofChildren children).body) : x ∈ children := by
  have hfilter {y : Tree × α} (hy : y ∈ children.filter (·.1.isNode)) : y ∈ children :=
    (List.mem_filter.mp hy).1
  unfold ofChildren at h
  split at h
  · exact absurd h List.not_mem_nil
  · next t a rest heq =>
      refine hfilter ?_
      rw [heq]
      split at h
      · exact List.mem_cons_of_mem _ (mem_body_withoutEndTag h)
      · exact mem_body_withoutEndTag h

/-- The start tag of an element is one of its children. -/
theorem startTag_mem {t : Tree} (h : (ofChildren children).startTag = some t) :
    (∃ a, (t, a) ∈ children) ∧ t.kind? = some .startTag := by
  unfold ofChildren at h
  split at h
  · exact nomatch h
  · next u a rest heq =>
      split at h
      · next hkind =>
          rw [withoutEndTag_startTag] at h
          rw [← Option.some.inj h]
          have hmem : (u, a) ∈ children.filter (·.1.isNode) := by
            rw [heq]
            exact List.mem_cons_self ..
          exact ⟨⟨a, (List.mem_filter.mp hmem).1⟩, eq_of_beq hkind⟩
      · rw [withoutEndTag_startTag] at h
        exact nomatch h

end ElementParts

/-! ## Trees -/

/-- What generation copies of a node itself: the text of a piece of code, and the code of attributes. -/
structure Tree.Copies (P : Text → Span → Prop) (n : Tree) : Prop where
  text : n.kind? = some .statementCode ∨ n.kind? = some .expressionCode → P n.text n.span
  values : ∀ a ∈ n.attributes, ∀ v ∈ a.value, P v.code.text v.code.span

namespace Emitted

open Emission

variable {component : Bool} {P : Text → Span → Prop}

/-- Both lists of emissions are nested. -/
def Nested (component : Bool) (P : Text → Span → Prop) (e : Emitted) : Prop :=
  Emission.Nested component P e.whole ∧ Emission.Nested component P e.body

theorem Nested.whole {es : List Emission} (h : Emission.Nested component P es) :
    Nested component P { whole := es } := ⟨h, .nil⟩

theorem Nested.empty : Nested component P {} := ⟨.nil, .nil⟩

/-- The values of some attributes are code that may be copied. -/
def ValuesIn (P : Text → Span → Prop) (attributes : List Attribute) : Prop :=
  ∀ a ∈ attributes, ∀ v ∈ a.value, P v.code.text v.code.span

theorem copies_toCode {v : AttributeValue} (h : P v.code.text v.code.span) (asCode : Bool) :
    ∀ c ∈ codeOfValue (v.toCode asCode), P c.1 c.2 := by
  intro c hc
  unfold AttributeValue.toCode at hc
  split at hc
  · rw [List.mem_singleton.mp hc]
    exact h
  · exact absurd hc List.not_mem_nil

theorem nested_ofHelper {attributes : List Attribute} (h : ValuesIn P attributes)
    (helper : TagHelper) : Emission.Nested false P (ofHelper attributes helper) := by
  have hcreate : Emission.Nested false P [.helperCreate helper.typeName] := nested_plain rfl rfl
  refine hcreate.append (nested_filterMap fun a ha e he => ?_)
  cases hbound : boundIgnoringCase? helper a with
  | none =>
      rw [hbound] at he
      exact nomatch he
  | some b =>
      cases hvalue : a.value with
      | none =>
          rw [hbound, hvalue] at he
          exact nomatch he
      | some v =>
          rw [hbound, hvalue] at he
          rw [← Option.some.inj he]
          exact .single rfl (copies_toCode (h a ha v hvalue) _)

theorem nested_ofTagHelpers {p : ElementParts Emitted} {body : List Emission}
    (hbody : Emission.Nested false P body) (h : ValuesIn P p.attributes) (tag : Text)
    (helpers : List TagHelper) : Emission.Nested false P (ofTagHelpers p body tag helpers) := by
  have hplain : Emission.Nested false P (plainAttributes p.attributes helpers) := by
    refine nested_filterMap fun a _ e he => ?_
    dsimp only at he
    split at he
    · exact nomatch he
    · rw [← Option.some.inj he]
      exact nested_plain rfl rfl
  have hhelpers : Emission.Nested false P (helpers.flatMap (ofHelper p.attributes)) :=
    .flatMap fun helper _ => nested_ofHelper h helper
  have hend : Emission.Nested false P [.helperEnd] := nested_plain rfl rfl
  have := (((Emission.Nested.enclosed (.ofHelper tag (modeOf p)) hbody).append hhelpers).append
    hplain).append hend
  unfold ofTagHelpers
  simpa only [List.append_assoc, List.cons_append, List.nil_append] using this

theorem nested_ofDirectiveAttribute (c : Option Text) {a : Attribute}
    (h : ∀ v ∈ a.value, P v.code.text v.code.span) :
    Emission.Nested true P (ofDirectiveAttribute c a) := by
  unfold ofDirectiveAttribute
  split
  · exact .nil
  · next v hvalue =>
      have hcopies := copies_toCode (h v hvalue) true
      dsimp only
      split
      · exact .single rfl hcopies
      · split
        · exact .single rfl hcopies
        · exact .single rfl hcopies

theorem nested_ofElementAttribute {a : Attribute}
    (h : ∀ v ∈ a.value, P v.code.text v.code.span) :
    Emission.Nested true P (ofElementAttribute a) := by
  unfold ofElementAttribute
  split
  · exact nested_ofDirectiveAttribute none h
  · split
    · next v hvalue => exact .single rfl (copies_toCode (h v hvalue) _)
    · exact nested_plain rfl rfl

theorem nested_ofComponentAttribute (c : TagHelper) {a : Attribute}
    (h : ∀ v ∈ a.value, P v.code.text v.code.span) :
    Emission.Nested true P (ofComponentAttribute c a) := by
  unfold ofComponentAttribute
  split
  · exact nested_ofDirectiveAttribute _ h
  · dsimp only
    split
    · exact nested_plain rfl rfl
    · next v hvalue => exact .single rfl (copies_toCode (h v hvalue) _)

theorem nested_ofElement {startTag : Tree} {body : List Emission}
    (hbody : Emission.Nested true P body) (h : ValuesIn P startTag.attributes) :
    Emission.Nested true P (ofElement startTag body) := by
  have hattributes : Emission.Nested true P (startTag.attributes.flatMap ofElementAttribute) :=
    .flatMap fun a ha => nested_ofElementAttribute (h a ha)
  exact .enclosed (.ofElement _) (hattributes.append hbody)

theorem nested_ofFragment {body : List Emission} (hbody : Emission.Nested true P body)
    (name : Text) : Emission.Nested true P (ofFragment name body) :=
  .enclosed (.ofFragment name) hbody

theorem nested_ofComponent {p : ElementParts Emitted} (hbody : ∀ x ∈ p.body, x.2.Nested true P)
    (h : ValuesIn P p.attributes) (c : TagHelper) :
    Emission.Nested true P (ofComponent p c) := by
  have hattributes : Emission.Nested true P (p.attributes.flatMap (ofComponentAttribute c)) :=
    .flatMap fun a ha => nested_ofComponentAttribute c (h a ha)
  unfold ofComponent
  rw [List.partition_eq_filter_filter]
  dsimp only
  rw [List.cons_append, List.cons_append]
  refine .enclosed (.ofComponent _) ((hattributes.append (.flatMap fun x hx => ?_)).append ?_)
  · have hmem := (List.mem_filter.mp hx).1
    split
    · exact nested_ofFragment (hbody _ hmem).2 _
    · exact .nil
  · split
    · refine nested_ofFragment (.flatMap fun x hx => ?_) _
      exact (hbody x (List.mem_filter.mp hx).1).1
    · exact .nil

theorem nested_ofBound (b : Binding) {p : ElementParts Emitted} {body children : List Emission}
    (hbody : ∀ x ∈ p.body, x.2.Nested component P) (h : ValuesIn P p.attributes)
    (hwhole : Emission.Nested component P body) (hchildren : Emission.Nested component P children) :
    Emission.Nested component P (ofBound component b p body children) := by
  unfold ofBound
  cases component with
  | true =>
      rw [if_pos rfl]
      split
      · exact nested_ofComponent hbody h _
      · exact hchildren
  | false =>
      rw [if_neg Bool.false_ne_true]
      split
      · exact hchildren
      · exact nested_ofTagHelpers hwhole h _ _

theorem nested_ofDirective (use : DirectiveUse) {block : List Emission}
    (h : Emission.Nested component P block) :
    Emission.Nested component P (ofDirective component use block) := by
  unfold ofDirective
  split
  · next name _ =>
      cases component with
      | true =>
          rw [Bool.not_true, Bool.and_false, if_neg Bool.false_ne_true]
          exact .nil
      | false =>
          split
          · exact .enclosed (.ofSection name) h
          · exact .nil
  · exact .nil

/-- The child that is found by its kind. -/
theorem mem_of_find?_kind {kind : NodeKind} {children : List (Tree × Emitted)} {t : Tree} {e : Emitted}
    (h : (children.find? fun x => x.1.kind? == some kind) = some (t, e)) :
    (t, e) ∈ children ∧ t.kind? = some kind := by
  have hkind := List.find?_some h
  exact ⟨List.mem_of_find?_eq_some h, beq_iff_eq.mp hkind⟩

section Node

variable {span : Span} {label : Option Label} {children : List (Tree × Emitted)}
  (hcopies : ∀ x ∈ children, ∀ k, x.1.kind? = some k → x.1.Copies P)
include hcopies

/-- The attributes of an element are those of the start tag among its children. -/
theorem valuesIn_startTag {t : Tree} (ht : (ElementParts.ofChildren children).startTag = some t) :
    ValuesIn P t.attributes := by
  obtain ⟨⟨a, ha⟩, hkind⟩ := ElementParts.startTag_mem ht
  exact (hcopies (t, a) ha _ hkind).values

theorem valuesIn_attributes : ValuesIn P (ElementParts.ofChildren children).attributes := by
  unfold ElementParts.attributes
  cases ht : (ElementParts.ofChildren children).startTag with
  | none => exact fun a ha => absurd ha List.not_mem_nil
  | some t => exact valuesIn_startTag hcopies ht

/-- An expression emits the code among its children. -/
theorem nested_ofExpression {kind : NodeKind} (hkind : kind = .implicitExpression ∨ kind = .explicitExpression) :
    (ofNode component kind span label children).Nested component P := by
  rcases hkind with rfl | rfl
  all_goals
    unfold ofNode
    dsimp only
    split
    · next t a h =>
        obtain ⟨hmem, hcode⟩ := mem_of_find?_kind h
        refine .whole (.single rfl fun c hc => ?_)
        rw [List.mem_singleton.mp hc]
        exact (hcopies (t, a) hmem _ hcode).text (Or.inr hcode)
    · exact .empty

/-- What a node emits, if what its children emit is nested and what is copied of them and of the node may be
    copied. -/
theorem nested_ofNode {kind : NodeKind} (hchildren : ∀ x ∈ children, x.2.Nested component P)
    (hself : kind = .statementCode → P (children.flatMap fun x => x.1.text) span) :
    (ofNode component kind span label children).Nested component P := by
  have hall : Emission.Nested component P (children.flatMap (·.2.whole)) :=
    .flatMap fun x hx => (hchildren x hx).1
  have hparts : ∀ x ∈ (ElementParts.ofChildren children).body, x.2.Nested component P :=
    fun x hx => hchildren x (ElementParts.mem_body hx)
  have hbody : Emission.Nested component P
      ((ElementParts.ofChildren children).body.flatMap (·.2.whole)) :=
    .flatMap fun x hx => (hparts x hx).1
  cases kind with
  | markupEphemeral | razorComment | metaCode | codeTransition => exact .empty
  | implicitExpression => exact nested_ofExpression hcopies (Or.inl rfl)
  | explicitExpression => exact nested_ofExpression hcopies (Or.inr rfl)
  | statementCode =>
      unfold ofNode
      dsimp only
      split
      · exact .empty
      · refine .whole (.single rfl fun c hc => ?_)
        rw [List.mem_singleton.mp hc]
        exact hself rfl
  | directive =>
      unfold ofNode
      dsimp only
      split
      · exact .whole (nested_ofDirective _ hall)
      · exact .empty
  | directiveBody =>
      unfold ofNode
      dsimp only
      split
      · next t e h => exact .whole (hchildren (t, e) (mem_of_find?_kind h).1).1
      · exact .empty
  | tagHelperElement =>
      unfold ofNode
      dsimp only
      split
      · exact ⟨nested_ofBound _ hparts (valuesIn_attributes hcopies) hbody hall, hbody⟩
      · exact ⟨hall, hbody⟩
  | element =>
      unfold ofNode
      dsimp only
      split
      · next hframes =>
          -- only in a component does an element have frames
          obtain rfl : component = true := (Bool.and_eq_true_iff.mp hframes).1
          split
          · next t ht => exact ⟨nested_ofElement hbody (valuesIn_startTag hcopies ht), hbody⟩
          · exact ⟨hall, hbody⟩
      · exact ⟨hall, hbody⟩
  | document | markupBlock | markupText | startTag | endTag | codeBlock | statement
  | statementBody | expressionCode | codeEphemeral => exact ⟨hall, hbody⟩

end Node

theorem ofTrees_eq (component isMarkup : Bool) (trees : List Tree) :
    ofTrees component isMarkup trees = trees.map fun t => (t, ofTree component isMarkup t) := by
  induction trees with
  | nil => rw [ofTrees, List.map_nil]
  | cons t trees ih => rw [ofTrees, ih, List.map_cons]

/-- What a tree emits is nested, if what is copied of its nodes may be copied. -/
theorem nested_ofTree (component isMarkup : Bool) {t : Tree} (h : ∀ n ∈ t.nodes, n.Copies P) :
    (ofTree component isMarkup t).Nested component P := by
  induction t using Tree.induct generalizing isMarkup with
  | token t =>
      rw [ofTree, ofToken]
      split
      · exact .whole (nested_plain rfl rfl)
      · exact .empty
  | node kind span label children ih =>
      rw [ofTree, ofTrees_eq]
      refine nested_ofNode (fun x hx k hk => ?_) (fun x hx => ?_) fun hkind => ?_
      · obtain ⟨t, ht, rfl⟩ := List.mem_map.mp hx
        exact h t (Tree.mem_nodes_node.mpr (Or.inr ⟨t, ht, Tree.mem_nodes_self hk⟩))
      · obtain ⟨t, ht, rfl⟩ := List.mem_map.mp hx
        exact ih t ht _ fun n hn => h n (Tree.mem_nodes_node.mpr (Or.inr ⟨t, ht, hn⟩))
      · have := (h _ (Tree.mem_nodes_node.mpr (Or.inl rfl))).text (Or.inl (by rw [hkind]; rfl))
        rw [Tree.text_node] at this
        rw [List.flatMap_map]
        exact this

end Emitted

/-- What a document emits is balanced, if what is copied of its nodes may be copied. -/
theorem Tree.balanced_emissions (component : Bool) {P : Text → Span → Prop} {root : Tree}
    (h : ∀ n ∈ root.nodes, n.Copies P) : Emission.Balanced P (root.emissions component) :=
  (Emitted.nested_ofTree component false h).1.balanced.joinMarkup

end RazorLang
