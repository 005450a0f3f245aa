import RazorLang.Grammar.Markup
import RazorLang.Proofs.Tree.Nodes

/-!
# Elements and their tags

What a tree says about the nesting of elements, read off the tree alone: which nodes are start tags and end
tags, what they are called, whether a start tag closes its element itself (`closesItself`), and which report
an element calls for (`nestingReport?`).

An element has one of four shapes (`ElementShape`), and of these a start tag that waits for an end tag in
vain and an end tag without a start tag are reported (`nestingReport?_unclosed`, `nestingReport?_stray`).
-/

namespace RazorLang.Tree

variable {e s t : Tree} {content : List Tree}

/-! ## Tags -/

/-- The tokens directly under a node. -/
def ownTokens (t : Tree) : List Token := t.children.filterMap token?

@[simp] theorem ownTokens_overTokens (kind : NodeKind) (ts : List Token) (place : Span) :
    (overTokens kind ts place).ownTokens = ts := by
  show (ts.map token).filterMap token? = ts
  rw [List.filterMap_map]
  exact List.filterMap_some

theorem mem_tokens_of_mem_ownTokens {u : Token} (h : u ∈ t.ownTokens) : u ∈ t.tokens := by
  obtain ⟨c, hc, hu⟩ := List.mem_filterMap.mp h
  rw [eq_token_of_token? hu] at hc
  exact mem_tokens_of_token_mem hc

/-- What a tag is called: its first text. -/
def tagName (t : Tree) : Text := Grammar.tagName t.ownTokens

/-- A node of a kind, or what stands for it where `<text>` is not written, whose tokens begin with `<` and
    one of another kind. -/
def beginsTag (kind : NodeKind) (second : TokenKind) (t : Tree) : Bool :=
  (t.kind? == some kind || t.kind? == some .markupEphemeral) &&
    (t.ownTokens.map (·.kind)).take 2 == [.openAngle, second]

/-- A start tag. -/
def opensElement (t : Tree) : Bool := t.beginsTag .startTag .text

/-- An end tag. -/
def closesElement (t : Tree) : Bool := t.beginsTag .endTag .slash

/-- A start tag or an end tag. -/
def isTag (t : Tree) : Bool := t.opensElement || t.closesElement

/-- What the end of a start tag depends on: the quote that is open behind some trees, whether the last of
    them is a slash outside of quotes, and whether it is a `>` right behind such a slash. -/
structure TagEnd where
  quote : Option TokenKind := none
  slash : Bool := false
  closed : Bool := false
  deriving DecidableEq, Repr

/-- Reads on by one tree of a start tag. -/
def TagEnd.next (e : TagEnd) : Tree → TagEnd
  | node .. => { quote := e.quote }
  | token t =>
    match t.kind with
    | .doubleQuote | .singleQuote => { quote := Grammar.toggleQuote e.quote t.kind }
    | .slash => { quote := e.quote, slash := e.quote.isNone }
    | .closeAngle => { quote := e.quote, closed := e.slash }
    | _ => { quote := e.quote }

/-- The end of a start tag over some trees. -/
def tagEnd (trees : List Tree) : TagEnd := trees.foldl TagEnd.next {}

/-- A start tag ends with `/>`, and the slash is not in quotes. -/
def closesItself (t : Tree) : Bool := (tagEnd t.children).closed

/-- An element with this start tag has content and an end tag. -/
def needsEndTag (t : Tree) : Bool := !t.closesItself && !isVoidElement t.tagName

theorem tagEnd_concat (trees : List Tree) (t : Tree) :
    tagEnd (trees ++ [t]) = (tagEnd trees).next t := List.foldl_concat ..

/-- No node is both a start tag and an end tag. -/
theorem not_closesElement_of_opensElement (h : t.opensElement = true) : t.closesElement = false := by
  have hkinds := beq_iff_eq.mp (Bool.and_eq_true_iff.mp h).2
  rw [closesElement, beginsTag, hkinds]
  exact Bool.and_false _

theorem isTag_eq_false : t.isTag = false ↔ t.opensElement = false ∧ t.closesElement = false :=
  Bool.or_eq_false_iff

/-- Only some kinds of nodes are tags. -/
theorem isTag_of_kind {kind : NodeKind} (h : t.kind? = some kind)
    (hkind : kind ≠ .startTag ∧ kind ≠ .endTag ∧ kind ≠ .markupEphemeral) : t.isTag = false := by
  obtain ⟨hstart, hend, hephemeral⟩ := hkind
  unfold isTag opensElement closesElement beginsTag
  rw [h]
  simp [hstart, hend, hephemeral]

/-- A tag has two tokens at least. -/
theorem isTag_single (kind : NodeKind) (u : Token) (place : Span) :
    (overTokens kind [u] place).isTag = false := by
  simp [isTag, opensElement, closesElement, beginsTag]

/-! ## Elements -/

/-- The start tag of an element: its first tree, if it is one. -/
def elementStart? (e : Tree) : Option Tree := e.children.head?.filter opensElement

/-- The end tag of an element: its last tree, if it is one. -/
def elementEnd? (e : Tree) : Option Tree := e.children.getLast?.filter closesElement

/-- An element with a start tag that waits for an end tag in vain. -/
def isUnclosed (e : Tree) : Bool :=
  e.kind? == some .element && e.elementStart?.any needsEndTag && e.elementEnd?.isNone

/-- What is reported of a node: of an element that lacks its end tag, and of an end tag that closes
    nothing. -/
def nestingReport? (e : Tree) : Option Diagnostic :=
  if e.kind? = some .element then
    match e.elementStart?, e.elementEnd? with
    | some s, none => if s.needsEndTag then some ⟨.unclosedElement s.tagName, s.span⟩ else none
    | none, some t =>
      if isVoidElement t.tagName then none else some ⟨.unexpectedEndTag t.tagName, t.span⟩
    | _, _ => none
  else none

/-- The trees that an element can have. -/
inductive ElementShape : List Tree → Prop where
  /-- A start tag that has no content and no end tag: it closes itself, or its name is that of a void
      element. -/
  | alone (s : Tree) (start : s.opensElement = true)
      (complete : s.closesItself = true ∨ isVoidElement s.tagName = true) : ElementShape [s]
  /-- An end tag that closes nothing. -/
  | stray (t : Tree) (last : t.closesElement = true) : ElementShape [t]
  /-- A start tag and content. -/
  | unclosed (s : Tree) (content : List Tree) (start : s.opensElement = true)
      (needs : s.needsEndTag = true) (plain : ∀ c ∈ content, c.isTag = false) :
      ElementShape (s :: content)
  /-- A start tag, content, and an end tag of the same name but for the case of letters. -/
  | closed (s : Tree) (content : List Tree) (t : Tree) (start : s.opensElement = true)
      (needs : s.needsEndTag = true) (plain : ∀ c ∈ content, c.isTag = false)
      (last : t.closesElement = true) (name : Text.sameIgnoringCase s.tagName t.tagName = true) :
      ElementShape (s :: content ++ [t])

/-- An element begins with a tag. -/
theorem ElementShape.isTag_head {trees : List Tree} (h : ElementShape trees) : ∀ c ∈ trees.head?, c.isTag = true := by
  have hstart {s : Tree} (hs : s.opensElement = true) : s.isTag = true := by rw [isTag, hs, Bool.true_or]
  cases h with
  | alone s start => exact fun c hc => Option.some.inj hc ▸ hstart start
  | stray t last => exact fun c hc => Option.some.inj hc ▸ (by rw [isTag, last, Bool.or_true])
  | unclosed s content start => exact fun c hc => Option.some.inj hc ▸ hstart start
  | closed s content t start => exact fun c hc => Option.some.inj hc ▸ hstart start

section

variable {span : Span} {label : Option Label}

theorem elementStart?_cons (hs : s.opensElement = true) :
    (node .element span label (s :: content)).elementStart? = some s := by
  rw [elementStart?, children, List.head?_cons, Option.filter_some, if_pos hs]

theorem elementEnd?_concat (ht : t.closesElement = true) :
    (node .element span label (content ++ [t])).elementEnd? = some t := by
  rw [elementEnd?, children, List.getLast?_concat, Option.filter_some, if_pos ht]

/-- A start tag and content have no end tag. -/
theorem elementEnd?_cons (hs : s.opensElement = true) (hcontent : ∀ c ∈ content, c.isTag = false) :
    (node .element span label (s :: content)).elementEnd? = none := by
  rw [elementEnd?, children, Option.filter_eq_none_iff]
  intro t ht
  rcases List.mem_cons.mp (List.mem_of_getLast? ht) with rfl | ht
  · rw [not_closesElement_of_opensElement hs]
    exact Bool.false_ne_true
  · rw [(isTag_eq_false.mp (hcontent t ht)).2]
    exact Bool.false_ne_true

theorem elementStart?_stray (ht : t.closesElement = true) :
    (node .element span label [t]).elementStart? = none := by
  rw [elementStart?, children, List.head?_cons, Option.filter_eq_none_iff]
  intro s hs hopens
  obtain rfl : t = s := Option.some.inj hs
  rw [not_closesElement_of_opensElement hopens] at ht
  exact Bool.false_ne_true ht

/-- Only an element that has no end tag is unclosed. -/
theorem isUnclosed_concat (ht : t.closesElement = true) :
    (node .element span label (content ++ [t])).isUnclosed = false := by
  rw [isUnclosed, elementEnd?_concat ht]
  exact Bool.and_false _

theorem isUnclosed_cons (hs : s.opensElement = true) (hneeds : s.needsEndTag = true)
    (hcontent : ∀ c ∈ content, c.isTag = false) :
    (node .element span label (s :: content)).isUnclosed = true := by
  rw [isUnclosed, elementStart?_cons hs, elementEnd?_cons hs hcontent, Option.any_some, hneeds]
  rfl

theorem isUnclosed_alone (hs : s.opensElement = true) (hneeds : s.needsEndTag = false) :
    (node .element span label [s]).isUnclosed = false := by
  rw [isUnclosed, elementStart?_cons hs, Option.any_some, hneeds, Bool.and_false, Bool.false_and]

/-! ## Reports -/

theorem nestingReport?_alone (hs : s.opensElement = true) (hneeds : s.needsEndTag = false) :
    (node .element span label [s]).nestingReport? = none := by
  have hnone : ∀ c ∈ ([] : List Tree), c.isTag = false := fun c hc => absurd hc List.not_mem_nil
  rw [nestingReport?, elementStart?_cons hs, elementEnd?_cons hs hnone]
  simp [kind?, hneeds]

theorem nestingReport?_stray (ht : t.closesElement = true) :
    (node .element span label [t]).nestingReport? =
      if isVoidElement t.tagName then none else some ⟨.unexpectedEndTag t.tagName, t.span⟩ := by
  rw [nestingReport?, elementStart?_stray ht, ← List.nil_append [t], elementEnd?_concat ht]
  simp [kind?]

theorem nestingReport?_unclosed (hs : s.opensElement = true) (hneeds : s.needsEndTag = true)
    (hcontent : ∀ c ∈ content, c.isTag = false) :
    (node .element span label (s :: content)).nestingReport? =
      some ⟨.unclosedElement s.tagName, s.span⟩ := by
  rw [nestingReport?, elementStart?_cons hs, elementEnd?_cons hs hcontent]
  simp [kind?, hneeds]

theorem nestingReport?_closed (hs : s.opensElement = true) (ht : t.closesElement = true) :
    (node .element span label (s :: content ++ [t])).nestingReport? = none := by
  rw [nestingReport?, elementEnd?_concat ht, List.cons_append, elementStart?_cons hs]
  simp [kind?]

end

/-- What is reported of a node is an element that is not closed, or an end tag that closes nothing. -/
theorem cause_of_nestingReport? {x : Diagnostic} (h : e.nestingReport? = some x) :
    ∃ name, x.cause = .unclosedElement name ∨ x.cause = .unexpectedEndTag name := by
  unfold nestingReport? at h
  split at h
  · split at h
    · split at h
      · exact ⟨_, .inl (congrArg Diagnostic.cause (Option.some.inj h)).symm⟩
      · exact nomatch h
    · split at h
      · exact nomatch h
      · exact ⟨_, .inr (congrArg Diagnostic.cause (Option.some.inj h)).symm⟩
    · exact nomatch h
  · exact nomatch h

theorem isUnclosed_of_kind (h : e.kind? ≠ some .element) : e.isUnclosed = false := by
  rw [isUnclosed, beq_eq_false_iff_ne.mpr h, Bool.false_and, Bool.false_and]

theorem nestingReport?_of_kind (h : e.kind? ≠ some .element) : e.nestingReport? = none := by
  rw [nestingReport?, if_neg h]

/-! ## The tag `<text>` -/

/-- If an element has both tags, its end tag is not written exactly if its start tag is not written either,
    the element is not inside another one, the end tag spells the name as the start tag does, and no element
    right inside is left open. -/
def TextPaired (inside : Bool) (e : Tree) : Prop :=
  e.kind? = some .element → ∀ s t, e.elementStart? = some s → e.elementEnd? = some t →
    (t.kind? = some .markupEphemeral ↔
      s.kind? = some .markupEphemeral ∧ inside = false ∧ t.tagName = "text".toList ∧
        ∀ c ∈ e.children, c.isUnclosed = false)

end RazorLang.Tree
