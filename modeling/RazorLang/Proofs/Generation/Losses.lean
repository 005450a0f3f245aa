import RazorLang.Proofs.Generation.Balance
import RazorLang.Proofs.Generation.Pages

/-!
# Expressions that generation leaves out

Generation reads most of a document off its tree, but the start tags of some elements off their text, and
some parts of a tree it does not read at all. `Tree.leftOut` lists the expressions that are lost that way,
node by node (`Tree.leftOutAt`). Behind it stands what the rest of the proof needs of elements: each node
under one is its start tag, its end tag, or in its body (`ElementParts.mem_ofChildren`).
-/

namespace RazorLang

open RazorLang.Tree

/-! ## What is left out -/

/-- A span lies within another one of the same source. -/
structure Span.Within (s t : Span) : Prop where
  path : s.path = t.path
  start : t.start.offset ≤ s.start.offset
  stop : s.stop ≤ t.stop

namespace Span

theorem within_iff {s t : Span} :
    s.Within t ↔ s.path = t.path ∧ t.start.offset ≤ s.start.offset ∧ s.stop ≤ t.stop :=
  ⟨fun h => ⟨h.path, h.start, h.stop⟩, fun ⟨path, start, stop⟩ => ⟨path, start, stop⟩⟩

instance (s t : Span) : Decidable (s.Within t) := decidable_of_iff' _ within_iff

theorem Within.refl (s : Span) : s.Within s := ⟨rfl, Nat.le_refl _, Nat.le_refl _⟩

end Span

namespace Tree

/-- The code of the expressions in a tree. -/
def expressions (t : Tree) : List Tree := t.nodes.filter (·.kind? == some .expressionCode)

/-- The start tag of an element, whether tag helpers are bound to it or not. -/
def opening? (t : Tree) : Option Tree := startTag? .element t.children

/-- In an element that needs frames, directive attributes and values that start with a transition are
    code. -/
def codeInElement (a : Attribute) (v : AttributeValue) : Bool := a.isDirective || v.isCode

/-- Of a component, the values of parameters that are not strings are code, too. -/
def codeInComponent (c : TagHelper) (a : Attribute) (v : AttributeValue) : Bool :=
  a.isDirective || ((c.attributes.find? (·.name == a.name)).any (!isStringType ·.type) || v.isCode)

/-- On an element of a page, only what a tag helper has a property for is code. -/
def codeInHelpers (helpers : List TagHelper) (a : Attribute) (v : AttributeValue) : Bool :=
  helpers.any fun h => (Emitted.boundIgnoringCase? h a).any (!isStringType ·.type || v.isCode)

/-- Which values of attributes are taken as code where generation reads the start tag of an element as
    text; start tags of other elements are read off the tree. -/
def takesAsCode? (component : Bool) (t : Tree) : Option (Attribute → AttributeValue → Bool) :=
  match t.binding? with
  | some b =>
    if component then b.component?.map codeInComponent
    else
      match b.helpers.filter (·.kind == .tagHelper) with
      | [] => none
      | helpers => some (codeInHelpers helpers)
  | none =>
    if component && t.kind? == some .element && needsFrames t.children then some codeInElement else none

/-- The code that is taken from the attributes of a start tag. -/
def codeSpans (takesAsCode : Attribute → AttributeValue → Bool) (startTag : Tree) : List Span :=
  startTag.attributes.filterMap fun a => do
    let v ← a.value
    if takesAsCode a v && !v.code.text.isEmpty then some v.code.span else none

/-- Where a start tag is read as text, the expressions in it that are not part of code taken from it: in a
    value without quotes, behind other text of a value, or in an attribute that no tag helper knows. -/
def lostInStartTag (component : Bool) (t : Tree) : List Tree :=
  match t.takesAsCode? component, t.opening? with
  | some takesAsCode, some startTag =>
    startTag.expressions.filter fun n =>
      !(startTag.codeSpans takesAsCode).any fun s => decide (n.span.Within s)
  | _, _ => []

/-- The expressions in the start tag of an element. -/
def openingExpressions (t : Tree) : List Tree := t.opening?.toList.flatMap expressions

/-- The expressions in the start tags that name the child content of a component. -/
def lostInFragments (component : Bool) (t : Tree) : List Tree :=
  if component && (t.binding?.bind Binding.component?).isSome then
    (t.children.filter Emitted.isFragment).flatMap openingExpressions
  else []

/-- The expressions that are left out at a node: all those in the tag `<text>` and in the directives that
    are not a section of a page, among them the markup of `@code` and `@functions`; and in elements those
    that start tags lose. -/
def leftOutAt (component : Bool) (t : Tree) : List Tree :=
  match t.kind? with
  | some .markupEphemeral => t.expressions
  | some .directive => if !component && (sectionName? t.label?).isSome then [] else t.expressions
  | some .directiveBody => (t.children.eraseP (·.kind? == some .markupBlock)).flatMap expressions
  | some .element | some .tagHelperElement =>
    t.lostInStartTag component ++ t.lostInFragments component
  | _ => []

/-- The expressions of a tree that generation leaves out. -/
def leftOut (component : Bool) (t : Tree) : List Tree := t.nodes.flatMap (leftOutAt component)

variable {component : Bool} {n t s : Tree} {kind : NodeKind} {span : Span} {label : Option Label}
  {children : List Tree}

@[simp] theorem expressions_token (t : Token) : (token t).expressions = [] := by
  rw [expressions, nodes_token, List.filter_nil]

theorem mem_expressions_node (hkind : kind ≠ .expressionCode) :
    n ∈ (node kind span label children).expressions ↔ ∃ t ∈ children, n ∈ t.expressions := by
  unfold expressions
  rw [List.mem_filter, mem_nodes_node]
  constructor
  · rintro ⟨rfl | ⟨t, ht, hn⟩, hcode⟩
    · exact absurd (Option.some.inj (eq_of_beq hcode)) hkind
    · exact ⟨t, ht, List.mem_filter.mpr ⟨hn, hcode⟩⟩
  · rintro ⟨t, ht, hn⟩
    obtain ⟨hn, hcode⟩ := List.mem_filter.mp hn
    exact ⟨Or.inr ⟨t, ht, hn⟩, hcode⟩

theorem isNode_of_mem_expressions (h : n ∈ t.expressions) : t.isNode = true := by
  cases t with
  | token t =>
      rw [expressions_token] at h
      exact absurd h List.not_mem_nil
  | node kind span label children => rfl

/-- A tree with an expression that is not blank is not blank. -/
theorem isBlank_of_mem_expressions (h : n ∈ t.expressions) (hblank : Text.isBlank n.text = false) :
    Text.isBlank t.text = false := by
  obtain ⟨before, after, htokens⟩ := tokens_of_mem_nodes (List.mem_filter.mp h).1
  unfold Text.isBlank at hblank ⊢
  unfold text at hblank ⊢
  rw [htokens, contentOf_append, contentOf_append, List.all_append, List.all_append, hblank,
    Bool.and_false, Bool.false_and]

/-- What a node does not leave out, it does not leave out itself, and neither does a tree under it. -/
theorem not_mem_leftOut_node (h : n ∉ (node kind span label children).leftOut component) :
    n ∉ (node kind span label children).leftOutAt component ∧
      ∀ t ∈ children, n ∉ t.leftOut component := by
  constructor
  · exact fun hself => h (List.mem_flatMap.mpr ⟨_, mem_nodes_node.mpr (Or.inl rfl), hself⟩)
  · intro t ht hn
    obtain ⟨m, hm, hat⟩ := List.mem_flatMap.mp hn
    exact h (List.mem_flatMap.mpr ⟨m, mem_nodes_node.mpr (Or.inr ⟨t, ht, hm⟩), hat⟩)

theorem mem_openingExpressions (hs : t.opening? = some s) :
    n ∈ t.openingExpressions ↔ n ∈ s.expressions := by
  rw [openingExpressions, hs]
  simp

/-- On an element of a page some values are code if a tag helper proper is bound to it. -/
theorem takesAsCode?_page {b : Binding} (h : b.helpers.filter (·.kind == .tagHelper) ≠ []) :
    (node .tagHelperElement span (some (.tagHelper b)) children).takesAsCode? false =
      some (codeInHelpers (b.helpers.filter (·.kind == .tagHelper))) := by
  unfold takesAsCode?
  split
  · next b' hb =>
      obtain rfl := Option.some.inj hb
      rw [if_neg Bool.false_ne_true]
      split
      · next hnil => exact absurd hnil h
      · rfl
  · next hb => exact absurd hb (Option.some_ne_none b)

/-- A node lies within code that is taken from an attribute of a start tag. -/
def IsTakenFrom (takesAsCode : Attribute → AttributeValue → Bool) (startTag n : Tree) : Prop :=
  ∃ a ∈ startTag.attributes, ∃ v, a.value = some v ∧ takesAsCode a v = true ∧ v.code.text ≠ [] ∧
    n.span.Within v.code.span

/-- An expression of a start tag that is not lost is part of code that is taken from an attribute. -/
theorem isTakenFrom_of_not_lost {takesAsCode : Attribute → AttributeValue → Bool}
    (htakes : t.takesAsCode? component = some takesAsCode) (hs : t.opening? = some s)
    (hn : n ∈ s.expressions) (hlost : n ∉ t.lostInStartTag component) :
    IsTakenFrom takesAsCode s n := by
  rw [lostInStartTag, htakes, hs] at hlost
  have hany : (s.codeSpans takesAsCode).any (fun s => decide (n.span.Within s)) = true := by
    by_contra hnone
    exact hlost (List.mem_filter.mpr ⟨hn, by rw [Bool.eq_false_iff.mpr hnone]; rfl⟩)
  obtain ⟨code, hcode, hwithin⟩ := List.any_eq_true.mp hany
  obtain ⟨a, ha, hspan⟩ := List.mem_filterMap.mp hcode
  obtain ⟨v, hv, hspan⟩ := Option.bind_eq_some_iff.mp hspan
  split at hspan
  · next htaken =>
      obtain ⟨htaken, hne⟩ := Bool.and_eq_true_iff.mp htaken
      refine ⟨a, ha, v, hv, htaken, fun hempty => ?_, ?_⟩
      · rw [hempty] at hne
        exact nomatch hne
      · rw [Option.some.inj hspan]
        exact of_decide_eq_true hwithin
  · exact nomatch hspan

end Tree

/-! ## The parts of elements -/

namespace ElementParts

variable {α : Type} {children : List (Tree × α)} {x : Tree × α}

theorem mem_withoutEndTag {startTag : Option Tree} {nodes : List (Tree × α)} (hx : x ∈ nodes) :
    x ∈ (withoutEndTag startTag nodes).body ∨ x.1.kind? = some .endTag := by
  unfold withoutEndTag
  split
  · next t a hlast =>
      split
      · next hkind =>
          rw [← List.dropLast_append_getLast? (t, a) hlast] at hx
          rcases List.mem_append.mp hx with hx | hx
          · exact Or.inl hx
          · rw [List.mem_singleton.mp hx]
            exact Or.inr (eq_of_beq hkind)
      · exact Or.inl hx
  · next hnone =>
      rw [List.getLast?_eq_none_iff.mp hnone] at hx
      exact absurd hx List.not_mem_nil

/-- A node under an element is its start tag or its end tag, or in its body. -/
theorem mem_ofChildren (hx : x ∈ children) (hnode : x.1.isNode = true) :
    (ofChildren children).startTag = some x.1 ∨ x ∈ (ofChildren children).body ∨
      x.1.kind? = some .endTag := by
  have hfilter : x ∈ children.filter (·.1.isNode) := List.mem_filter.mpr ⟨hx, hnode⟩
  unfold ofChildren
  split
  · next hnil =>
      rw [hnil] at hfilter
      exact absurd hfilter List.not_mem_nil
  · next t a rest hcons =>
      rw [hcons] at hfilter
      split
      · rcases List.mem_cons.mp hfilter with rfl | hfilter
        · exact Or.inl (withoutEndTag_startTag _ _)
        · exact Or.inr (mem_withoutEndTag hfilter)
      · exact Or.inr (mem_withoutEndTag hfilter)

/-- The start tag of an element is found where its children are known. -/
theorem startTag_ofChildren (children : List (Tree × α)) :
    (ofChildren children).startTag = startTag? .element (children.map Prod.fst) := by
  rw [startTag?, if_pos rfl, List.find?_map, ← List.head?_filter]
  unfold ofChildren
  split
  · next hnil =>
      show none = Option.filter _ ((children.filter (·.1.isNode)).head?.map Prod.fst)
      rw [hnil]
      rfl
  · next t a rest hcons =>
      show _ = Option.filter _ ((children.filter (·.1.isNode)).head?.map Prod.fst)
      rw [hcons]
      show _ = Option.filter (fun t => t.kind? == some .startTag) (some t)
      split
      · next hkind => rw [withoutEndTag_startTag, Option.filter_some, if_pos hkind]
      · next hkind => rw [withoutEndTag_startTag, Option.filter_some, if_neg hkind]

end ElementParts

end RazorLang
