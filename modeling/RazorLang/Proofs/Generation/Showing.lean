import RazorLang.Proofs.Generation.Completeness
import RazorLang.Proofs.Generation.Losses

/-!
# Nodes show their expressions

`Emission.Cover` says that some emissions copy a piece of the source that an expression lies within. What a
node emits covers each expression in it that it does not leave out, if what its children emit does
(`Emitted.Shows`): one lemma for each construct, from attributes up to components.
-/

namespace RazorLang

open RazorLang.Tree

/-- A member of a list is the first one that passes a test, or it is not what erasing that one takes. -/
theorem find?_eq_some_or_mem_eraseP {α : Type} {p : α → Bool} {as : List α} {a : α} (h : a ∈ as) :
    as.find? p = some a ∨ a ∈ as.eraseP p := by
  induction as with
  | nil => exact absurd h List.not_mem_nil
  | cons b as ih =>
      cases hb : p b with
      | true =>
          rw [List.find?_cons_of_pos hb, List.eraseP_cons_of_pos hb]
          exact (List.mem_cons.mp h).imp_left fun heq => by rw [heq]
      | false =>
          rw [List.find?_cons_of_neg (Bool.eq_false_iff.mp hb),
            List.eraseP_cons_of_neg (Bool.eq_false_iff.mp hb)]
          rcases List.mem_cons.mp h with rfl | h
          · exact Or.inr List.mem_cons_self
          · exact (ih h).imp_right (List.mem_cons_of_mem b)

/-! ## What is shown of the values of attributes -/

namespace Emission

/-- Some emissions copy a piece of the source that a node lies within. -/
def Cover (es : List Emission) (n : Tree) : Prop :=
  ∃ e ∈ es, ∃ c ∈ e.shown, c.1 ≠ [] ∧ n.span.Within c.2

variable {es fs : List Emission} {n : Tree}

theorem Cover.mono (h : Cover es n) (hsubset : es ⊆ fs) : Cover fs n := by
  obtain ⟨e, he, c, hc, hne, hwithin⟩ := h
  exact ⟨e, hsubset he, c, hc, hne, hwithin⟩

/-- The code of a value covers what lies within it. -/
theorem Cover.of_code {v : AttributeValue} (h : ∃ e ∈ es, e.shown = codeOfValue (v.toCode true))
    (hne : v.code.text ≠ []) (hwithin : n.span.Within v.code.span) : Cover es n := by
  obtain ⟨e, he, hshown⟩ := h
  exact ⟨e, he, (v.code.text, v.code.span), by rw [hshown]; exact List.mem_singleton_self _, hne,
    hwithin⟩

theorem Cover.flatMap {α : Type} {f : α → List Emission} {as : List α} {a : α} (ha : a ∈ as)
    (h : Cover (f a) n) : Cover (as.flatMap f) n :=
  h.mono fun _ he => List.mem_flatMap.mpr ⟨a, ha, he⟩

end Emission

namespace Emitted

open Emission

variable {a : Attribute} {v : AttributeValue}

theorem shown_ofDirectiveAttribute (component : Option Text) (hv : a.value = some v) :
    ∃ e ∈ ofDirectiveAttribute component a, e.shown = codeOfValue (v.toCode true) := by
  unfold ofDirectiveAttribute
  rw [hv]
  dsimp only
  split
  · exact ⟨_, List.mem_singleton_self _, rfl⟩
  · split
    · exact ⟨_, List.mem_singleton_self _, rfl⟩
    · exact ⟨_, List.mem_singleton_self _, rfl⟩

theorem shown_ofElementAttribute (hv : a.value = some v)
    (hcode : codeInElement a v = true) :
    ∃ e ∈ ofElementAttribute a, e.shown = codeOfValue (v.toCode true) := by
  unfold ofElementAttribute
  split
  · exact shown_ofDirectiveAttribute none hv
  · next hdirective =>
      rw [codeInElement, Bool.eq_false_iff.mpr hdirective, Bool.false_or] at hcode
      rw [hv]
      dsimp only
      rw [hcode]
      exact ⟨_, List.mem_singleton_self _, rfl⟩

theorem shown_ofComponentAttribute {c : TagHelper} (hv : a.value = some v)
    (hcode : codeInComponent c a v = true) :
    ∃ e ∈ ofComponentAttribute c a, e.shown = codeOfValue (v.toCode true) := by
  unfold ofComponentAttribute
  split
  · exact shown_ofDirectiveAttribute _ hv
  · next hdirective =>
      rw [codeInComponent, Bool.eq_false_iff.mpr hdirective, Bool.false_or] at hcode
      rw [hv]
      dsimp only
      rw [hcode]
      exact ⟨_, List.mem_singleton_self _, rfl⟩

theorem shown_ofHelper {attributes : List Attribute} {h : TagHelper} (ha : a ∈ attributes)
    (hv : a.value = some v)
    (hcode : (boundIgnoringCase? h a).any (!isStringType ·.type || v.isCode) = true) :
    ∃ e ∈ ofHelper attributes h, e.shown = codeOfValue (v.toCode true) := by
  cases hb : boundIgnoringCase? h a with
  | none =>
      rw [hb] at hcode
      exact nomatch hcode
  | some b =>
      rw [hb, Option.any_some] at hcode
      refine ⟨.helperProperty h.typeName b.property a.name (v.toCode true), ?_, rfl⟩
      refine List.mem_cons_of_mem _ (List.mem_filterMap.mpr ⟨a, ha, ?_⟩)
      rw [hb, hv]
      show some (helperProperty h.typeName b.property a.name
        (v.toCode (!isStringType b.type || v.isCode))) = _
      rw [hcode]

/-! ## What is shown of a tree -/

/-- What is emitted of a tree shows an expression of it that it does not leave out: as a whole, and in
    the body of an element with tag helpers if the expression is not in the start tag. -/
structure Shows (component : Bool) (n : Tree) (x : Tree × Emitted) : Prop where
  whole : n ∈ x.1.expressions → n ∉ x.1.leftOut component → Cover x.2.whole n
  body : x.1.binding?.isSome → n ∈ x.1.expressions → n ∉ x.1.leftOut component →
    n ∉ x.1.openingExpressions → Cover x.2.body n

variable {component : Bool} {n : Tree} {kind : NodeKind} {span : Span} {label : Option Label}
  {trees : List Tree} {children : List (Tree × Emitted)} {x : Tree × Emitted}

/-- A node's expression that is not left out is one of a child that does not leave it out either. -/
theorem exists_child (hkind : kind ≠ .expressionCode)
    (hn : n ∈ (node kind span label (children.map Prod.fst)).expressions)
    (hkept : n ∉ (node kind span label (children.map Prod.fst)).leftOut component) :
    ∃ x ∈ children, n ∈ x.1.expressions ∧ n ∉ x.1.leftOut component := by
  obtain ⟨t, ht, hn⟩ := (mem_expressions_node hkind).mp hn
  obtain ⟨x, hx, rfl⟩ := List.mem_map.mp ht
  exact ⟨x, hx, hn, (not_mem_leftOut_node hkept).2 x.1 ht⟩

theorem opening?_node :
    (node kind span label (children.map Prod.fst)).opening? =
      (ElementParts.ofChildren children).startTag :=
  (ElementParts.startTag_ofChildren children).symm

/-- What the children show is shown where all that they emit is emitted. -/
theorem cover_all (h : ∀ x ∈ children, Shows component n x) (hkind : kind ≠ .expressionCode)
    (hn : n ∈ (node kind span label (children.map Prod.fst)).expressions)
    (hkept : n ∉ (node kind span label (children.map Prod.fst)).leftOut component) :
    Cover (children.flatMap (·.2.whole)) n := by
  obtain ⟨x, hx, hxn, hxkept⟩ := exists_child hkind hn hkept
  exact .flatMap hx ((h x hx).whole hxn hxkept)

/-- Nodes that only put together what their children emit. -/
theorem shows_plain (h : ∀ x ∈ children, Shows component n x) (hkind : kind ∈ plainKinds)
    (helement : kind ≠ .element) :
    Shows component n
      (node kind span none (children.map Prod.fst), ofNode component kind span none children) := by
  have hcode : kind ≠ .expressionCode := by
    rintro rfl
    exact absurd hkind (by decide)
  have hwhole : (ofNode component kind span none children).whole = children.flatMap (·.2.whole) := by
    fin_cases hkind
    case «3» => exact absurd rfl helement
    all_goals rfl
  constructor
  · intro hn hkept
    rw [hwhole]
    exact cover_all h hcode hn hkept
  · exact fun hbinding => nomatch hbinding

/-! ### Elements -/

/-- There is no expression in an end tag. -/
def EndTagsPlain (children : List (Tree × Emitted)) : Prop :=
  ∀ x ∈ children, x.1.kind? = some .endTag → x.1.expressions = []

/-- An expression of an element is in its start tag or in its body. -/
theorem exists_in_body (hend : EndTagsPlain children) (hkind : kind ≠ .expressionCode)
    (hn : n ∈ (node kind span label (children.map Prod.fst)).expressions)
    (hkept : n ∉ (node kind span label (children.map Prod.fst)).leftOut component)
    (hopening : ∀ s, (ElementParts.ofChildren children).startTag = some s → n ∉ s.expressions) :
    ∃ x ∈ (ElementParts.ofChildren children).body,
      n ∈ x.1.expressions ∧ n ∉ x.1.leftOut component := by
  obtain ⟨x, hx, hxn, hxkept⟩ := exists_child hkind hn hkept
  rcases ElementParts.mem_ofChildren hx (isNode_of_mem_expressions hxn) with hstart | hbody | hkind
  · exact absurd hxn (hopening _ hstart)
  · exact ⟨x, hbody, hxn, hxkept⟩
  · rw [hend x hx hkind] at hxn
    exact absurd hxn List.not_mem_nil

/-- Where a start tag is read as text, an expression of the element that is not left out is part of code
    taken from the start tag, or in the body. -/
theorem isTakenFrom_or_exists_in_body {takesAsCode : Attribute → AttributeValue → Bool}
    (hend : EndTagsPlain children) (hkind : kind = .element ∨ kind = .tagHelperElement)
    (htakes : (node kind span label (children.map Prod.fst)).takesAsCode? component = some takesAsCode)
    (hn : n ∈ (node kind span label (children.map Prod.fst)).expressions)
    (hkept : n ∉ (node kind span label (children.map Prod.fst)).leftOut component) :
    (∃ s, (ElementParts.ofChildren children).startTag = some s ∧ IsTakenFrom takesAsCode s n) ∨
      ∃ x ∈ (ElementParts.ofChildren children).body,
        n ∈ x.1.expressions ∧ n ∉ x.1.leftOut component := by
  have hlost : n ∉ (node kind span label (children.map Prod.fst)).lostInStartTag component := by
    intro hlost
    refine (not_mem_leftOut_node hkept).1 ?_
    rcases hkind with rfl | rfl
    · exact List.mem_append_left _ hlost
    · exact List.mem_append_left _ hlost
  by_cases hopening : ∃ s, (ElementParts.ofChildren children).startTag = some s ∧ n ∈ s.expressions
  · obtain ⟨s, hs, hopening⟩ := hopening
    exact Or.inl ⟨s, hs, isTakenFrom_of_not_lost htakes (opening?_node.trans hs) hopening hlost⟩
  · refine Or.inr (exists_in_body hend ?_ hn hkept fun s hs hns => hopening ⟨s, hs, hns⟩)
    rcases hkind with rfl | rfl
    · decide
    · decide

/-- What is in the body of an element is shown there. -/
theorem cover_body (h : ∀ x ∈ children, Shows component n x)
    (hbody : ∃ x ∈ (ElementParts.ofChildren children).body,
      n ∈ x.1.expressions ∧ n ∉ x.1.leftOut component) :
    Cover ((ElementParts.ofChildren children).body.flatMap (·.2.whole)) n := by
  obtain ⟨x, hx, hxn, hxkept⟩ := hbody
  exact .flatMap hx ((h x (ElementParts.mem_body hx)).whole hxn hxkept)

/-- An element that needs frames of its own shows the code of its attributes and its body. -/
theorem shows_element (h : ∀ x ∈ children, Shows component n x) (hend : EndTagsPlain children) :
    Shows component n
      (node .element span none (children.map Prod.fst),
        ofNode component .element span none children) := by
  refine ⟨fun hn hkept => ?_, fun hbinding => nomatch hbinding⟩
  have hall := cover_all h (by decide) hn hkept
  unfold ofNode
  dsimp only
  split
  · next hframes =>
      have htakes : (node .element span none (children.map Prod.fst)).takesAsCode? component =
          some codeInElement := by
        obtain ⟨hcomponent, hneeds⟩ := Bool.and_eq_true_iff.mp hframes
        subst hcomponent
        exact if_pos hneeds
      split
      · next startTag hs =>
          unfold ofElement
          rcases isTakenFrom_or_exists_in_body hend (Or.inl rfl) htakes hn hkept with
            ⟨s, hs', a, ha, v, hv, htaken, hne, hwithin⟩ | hbody
          · obtain rfl := Option.some.inj (hs.symm.trans hs')
            have hattribute := Cover.of_code (shown_ofElementAttribute hv htaken) hne hwithin
            exact (Cover.flatMap ha hattribute).mono fun e he => by simp [he]
          · exact (cover_body h hbody).mono fun e he => by simp [he]
      · exact hall
  · exact hall

/-- An element of a page with tag helpers shows the code that properties are given, and its body. -/
theorem cover_ofTagHelpers {p : ElementParts Emitted} {body : List Emission} (tag : Text)
    {helpers : List TagHelper}
    (h : (∃ s, p.startTag = some s ∧ IsTakenFrom (codeInHelpers helpers) s n) ∨ Cover body n) :
    Cover (ofTagHelpers p body tag helpers) n := by
  unfold ofTagHelpers
  rcases h with ⟨s, hs, a, ha, v, hv, htaken, hne, hwithin⟩ | h
  · obtain ⟨helper, hhelper, htaken⟩ := List.any_eq_true.mp htaken
    have hattributes : p.attributes = s.attributes := by rw [ElementParts.attributes, hs]; rfl
    have hcover : Cover (ofHelper p.attributes helper) n :=
      .of_code (shown_ofHelper (by rw [hattributes]; exact ha) hv htaken) hne hwithin
    refine (Cover.flatMap hhelper hcover).mono fun e he => ?_
    simp only [List.mem_append, List.mem_cons, he, true_or, or_true]
  · exact h.mono fun e he => by simp [he]

theorem isSome_binding_of_isFragment {t : Tree} (h : isFragment t = true) : t.binding?.isSome := by
  unfold isFragment at h
  cases hbinding : t.binding? with
  | none =>
      rw [hbinding] at h
      exact nomatch h
  | some b => rfl

/-- A component shows the code of its attributes and the child content, with or without a name. -/
theorem cover_ofComponent {p : ElementParts Emitted} {c : TagHelper}
    (h : (∃ s, p.startTag = some s ∧ IsTakenFrom (codeInComponent c) s n) ∨
      ∃ x ∈ p.body, if isFragment x.1 then Cover x.2.body n
        else Text.isBlank x.1.text = false ∧ Cover x.2.whole n) :
    Cover (ofComponent p c) n := by
  unfold ofComponent
  rw [List.partition_eq_filter_filter]
  dsimp only
  rcases h with ⟨s, hs, a, ha, v, hv, htaken, hne, hwithin⟩ | ⟨x, hx, h⟩
  · -- an attribute of the start tag
    have hattributes : p.attributes = s.attributes := by rw [ElementParts.attributes, hs]; rfl
    have hcover := Cover.of_code (shown_ofComponentAttribute hv htaken) hne hwithin
    rw [hattributes]
    exact (Cover.flatMap ha hcover).mono fun e he => by
      simp only [List.mem_append, List.mem_cons, he, true_or, or_true]
  · split at h
    · -- child content with a name, of which only the body is emitted
      next hfragment =>
        have hmem : x ∈ p.body.filter fun x => isFragment x.1 := List.mem_filter.mpr ⟨hx, hfragment⟩
        obtain ⟨b, hb⟩ := Option.isSome_iff_exists.mp (isSome_binding_of_isFragment hfragment)
        refine h.mono fun e he => ?_
        refine List.mem_append_left _ (List.mem_append_left _ (List.mem_append_right _ ?_))
        refine List.mem_flatMap.mpr ⟨x, hmem, ?_⟩
        rw [hb]
        exact List.mem_append_left _ (List.mem_cons_of_mem _ he)
    · -- other content, which is emitted only if some of it is not blank
      next hcontent =>
        obtain ⟨hblank, h⟩ := h
        have hmem : x ∈ p.body.filter (not ∘ fun x => isFragment x.1) :=
          List.mem_filter.mpr ⟨hx, congrArg not (Bool.eq_false_iff.mpr hcontent)⟩
        have hany : (p.body.filter (not ∘ fun x => isFragment x.1)).any
            (fun x => !Text.isBlank x.1.text) = true :=
          List.any_eq_true.mpr ⟨x, hmem, congrArg not hblank⟩
        rw [if_pos hany]
        refine (Cover.flatMap (f := fun x : Tree × Emitted => x.2.whole) hmem h).mono fun e he => ?_
        refine List.mem_append_left _ (List.mem_append_right _ ?_)
        exact List.mem_append_left _ (List.mem_cons_of_mem _ he)

/-- What a component does not leave out is not in a start tag that names child content. -/
theorem not_mem_openingExpressions {b : Binding} {c : TagHelper} (hc : b.component? = some c)
    (hkept : n ∉ (node .tagHelperElement span (some (.tagHelper b))
      (children.map Prod.fst)).leftOut true) (hx : x ∈ children) (hfragment : isFragment x.1 = true) :
    n ∉ x.1.openingExpressions := by
  intro hopening
  refine (not_mem_leftOut_node hkept).1 (List.mem_append_right _ ?_)
  have hcomponent : (true && ((node .tagHelperElement span (some (.tagHelper b))
      (children.map Prod.fst)).binding?.bind Binding.component?).isSome) = true :=
    congrArg Option.isSome hc
  rw [lostInFragments, if_pos hcomponent]
  exact List.mem_flatMap.mpr ⟨x.1,
    List.mem_filter.mpr ⟨List.mem_map.mpr ⟨x, hx, rfl⟩, hfragment⟩, hopening⟩

/-- What an element with tag helpers emits shows its start tag as far as it is code, and its body. -/
theorem cover_ofBound (h : ∀ x ∈ children, Shows component n x) (hend : EndTagsPlain children)
    (hblank : Text.isBlank n.text = false) {b : Binding}
    (hn : n ∈ (node .tagHelperElement span (some (.tagHelper b))
      (children.map Prod.fst)).expressions)
    (hkept : n ∉ (node .tagHelperElement span (some (.tagHelper b))
      (children.map Prod.fst)).leftOut component) :
    Cover (ofBound component b (ElementParts.ofChildren children)
      ((ElementParts.ofChildren children).body.flatMap (·.2.whole))
      (children.flatMap (·.2.whole))) n := by
  have hall := cover_all h (by decide) hn hkept
  have hparts {takesAsCode : Attribute → AttributeValue → Bool}
      (htakes : (node .tagHelperElement span (some (.tagHelper b))
        (children.map Prod.fst)).takesAsCode? component = some takesAsCode) :=
    isTakenFrom_or_exists_in_body hend (Or.inr rfl) htakes hn hkept
  unfold ofBound
  split
  · next hcomponent =>
      subst hcomponent
      split
      · next c hc =>
          refine cover_ofComponent ((hparts (congrArg (Option.map codeInComponent) hc)).imp_right ?_)
          rintro ⟨x, hx, hxn, hxkept⟩
          refine ⟨x, hx, ?_⟩
          split
          · next hfragment =>
              exact (h x (ElementParts.mem_body hx)).body (isSome_binding_of_isFragment hfragment)
                hxn hxkept (not_mem_openingExpressions hc hkept (ElementParts.mem_body hx) hfragment)
          · exact ⟨isBlank_of_mem_expressions hxn hblank,
              (h x (ElementParts.mem_body hx)).whole hxn hxkept⟩
      · exact hall
  · next hcomponent =>
      rw [Bool.not_eq_true] at hcomponent
      subst hcomponent
      split
      · exact hall
      · next hne =>
          exact cover_ofTagHelpers _ ((hparts (takesAsCode?_page hne)).imp_right (cover_body h))

theorem shows_tagHelperElement (h : ∀ x ∈ children, Shows component n x) (hend : EndTagsPlain children)
    (hblank : Text.isBlank n.text = false) (b : Binding) :
    Shows component n
      (node .tagHelperElement span (some (.tagHelper b)) (children.map Prod.fst),
        ofNode component .tagHelperElement span (some (.tagHelper b)) children) := by
  refine ⟨cover_ofBound h hend hblank, fun _ hn hkept hopening => ?_⟩
  refine cover_body h (exists_in_body hend (by decide) hn hkept fun s hs hns => hopening ?_)
  exact (mem_openingExpressions (opening?_node.trans hs)).mpr hns

/-! ### Directives and expressions -/

/-- A section of a page shows what is in it; all other directives leave it out. -/
theorem shows_directive (h : ∀ x ∈ children, Shows component n x) (use : DirectiveUse) :
    Shows component n
      (node .directive span (some (.directive use)) (children.map Prod.fst),
        ofNode component .directive span (some (.directive use)) children) := by
  refine ⟨fun hn hkept => ?_, fun hbinding => nomatch hbinding⟩
  have hall := cover_all h (by decide) hn hkept
  have hself : n ∉ if (!component && (sectionName? (some (.directive use))).isSome) = true then []
      else (node .directive span (some (.directive use)) (children.map Prod.fst)).expressions :=
    (not_mem_leftOut_node hkept).1
  split at hself
  · next hsection =>
      obtain ⟨hpage, hname⟩ := Bool.and_eq_true_iff.mp hsection
      unfold sectionName? at hname
      dsimp only at hname
      split at hname
      · next huse =>
          obtain ⟨name, hname⟩ := Option.isSome_iff_exists.mp hname
          show Cover (ofDirective component use _) n
          unfold ofDirective
          rw [hname]
          dsimp only
          rw [if_pos (by rw [hpage, decide_eq_true huse]; rfl)]
          exact hall.mono fun e he => List.mem_append_left _ (List.mem_cons_of_mem _ he)
      · exact nomatch hname
  · exact absurd hn hself

/-- The body of a directive shows its markup block, and leaves out everything else. -/
theorem shows_directiveBody (h : ∀ x ∈ children, Shows component n x) :
    Shows component n
      (node .directiveBody span none (children.map Prod.fst),
        ofNode component .directiveBody span none children) := by
  refine ⟨fun hn hkept => ?_, fun hbinding => nomatch hbinding⟩
  obtain ⟨x, hx, hxn, hxkept⟩ := exists_child (by decide) hn hkept
  rcases find?_eq_some_or_mem_eraseP (p := fun x => x.1.kind? == some .markupBlock) hx with
    hfind | hother
  · unfold ofNode
    dsimp only
    rw [hfind]
    exact (h x hx).whole hxn hxkept
  · refine absurd (List.mem_flatMap.mpr ⟨x.1, ?_, hxn⟩) (not_mem_leftOut_node hkept).1
    show x.1 ∈ (children.map Prod.fst).eraseP _
    rw [List.eraseP_map]
    exact List.mem_map.mpr ⟨x, hother, rfl⟩

/-- Where a tree leaves out all that it has, nothing need be shown. -/
theorem shows_ephemeral {e : Emitted} :
    Shows component n (node .markupEphemeral span none trees, e) := by
  refine ⟨fun hn hkept => ?_, fun hbinding => nomatch hbinding⟩
  exact absurd hn (not_mem_leftOut_node hkept).1

/-- Where there are no expressions, nothing need be shown. -/
theorem shows_of_none (h : x.1.expressions = []) : Shows component n x := by
  constructor
  · intro hn
    rw [h] at hn
    exact absurd hn List.not_mem_nil
  · intro _ hn
    rw [h] at hn
    exact absurd hn List.not_mem_nil

/-- Each of the nodes over any trees shows its expressions. -/
theorem shows_branch (hkind : kind.isBranch = true) (h : ∀ x ∈ children, Shows component n x)
    (hend : EndTagsPlain children) :
    Shows component n
      (node kind span none (children.map Prod.fst), ofNode component kind span none children) := by
  rcases NodeKind.isBranch_cases hkind with hplain | hskipped | rfl
  · by_cases helement : kind = .element
    · rw [helement]
      exact shows_element h hend
    · exact shows_plain h hplain helement
  · have hephemeral : kind = .markupEphemeral := by
      revert hkind hskipped
      cases kind <;> decide
    rw [hephemeral]
    exact shows_ephemeral
  · exact shows_directiveBody h

end Emitted

end RazorLang
