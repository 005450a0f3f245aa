import RazorLang.Proofs.Grammar.TagDerivation

/-!
# Derivations of markup

A run of markup keeps the elements that are open, the innermost first. Each of them is derived from where the
next outer one ends (`Nested`), so that closing an element makes one more node of what has been derived.
Closing the innermost elements without end tags only adds to what is in the next outer one, and leaves an
unclosed element there (`closeInnermost_fill`); between the turns of a run no open element has one in it
(`MarkupRun.Settled`). Whether `<text>` and `</text>` are written is decided where they are read, by the
elements open there (`textTagAllowed_iff`), and it is this invariant that relates the two decisions.

Main statements: `markup_derives` and `ParsedDocument.derives_root` — a parsed document is derived, and its
diagnostics are what the derivation reports.
-/

namespace RazorLang

open RazorLang.Tree Reader

variable {r r' r₀ r₁ : Reader} {scope : MarkupScope} {e : OpenElement} {outer opened : List OpenElement}
  {t : Tree} {trees more : List Tree} {ts : List Token}

/-! ## Open elements -/

namespace Grammar

/-- Whether `<text>` may stand for markup depends on the scope and on the names of the open elements. -/
theorem textTagAllowed_iff {m : MarkupRun} : textTagAllowed scope m = true ↔
    scope = .element ∧ (m.opened = [] ∨ ∃ e, m.opened = [e] ∧ e.name = "text".toList) := by
  unfold textTagAllowed
  rw [Bool.and_eq_true, decide_eq_true_iff]
  refine and_congr_right fun _ => ?_
  split
  · next h => simp [h]
  · next e h => simp [h]
  · next h h' =>
      refine ⟨fun hfalse => absurd hfalse Bool.false_ne_true, ?_⟩
      rintro (hnil | ⟨e, he, -⟩)
      · exact absurd hnil h
      · exact absurd he (h' e)

/-- A tag that is not written is `<text>` or `</text>` where it may stand. -/
theorem tagKind_eq_ephemeral {kind : NodeKind} (h : kind ≠ .markupEphemeral) {textTag : Bool} {name : Text} :
    tagKind kind textTag name = .markupEphemeral ↔ textTag = true ∧ name = "text".toList := by
  unfold tagKind
  split
  · next hboth => simpa using hboth
  · next hnot =>
      refine ⟨fun heq => absurd heq h, fun hboth => absurd ?_ hnot⟩
      simpa using hboth

end Grammar

/-- A tag is no element. -/
theorem Tree.isUnclosed_of_tagKind {kind : NodeKind} (h : kind ≠ .element) {textTag : Bool} {name : Text}
    (ht : t.kind? = some (Grammar.tagKind kind textTag name)) : t.isUnclosed = false := by
  refine isUnclosed_of_kind fun heq => ?_
  have hkind := Option.some.inj (ht.symm.trans heq)
  unfold Grammar.tagKind at hkind
  split at hkind
  · exact nomatch hkind
  · exact h hkind

/-- The element that is open inside of some others is derived between two readers. -/
structure OpenElement.Stands (scope : MarkupScope) (outer : List OpenElement) (r₁ : Reader) (e : OpenElement)
    (r : Reader) : Prop where
  derives : Derives true r₁ (e.startTag :: e.content) r
  opening : e.startTag.IsOpening (Grammar.textTagAllowed scope { opened := outer }) e.name false
  needs : isVoidElement e.name = false
  plain : ∀ c ∈ e.content, c.isTag = false

/-- The trees outside of all open elements are derived, and behind them the open elements. -/
def Nested (scope : MarkupScope) (r₀ : Reader) (trees : List Tree) : List OpenElement → Reader → Prop
  | [], r => Derives false r₀ trees r
  | e :: outer, r => ∃ r₁, Nested scope r₀ trees outer r₁ ∧ e.Stands scope outer r₁ r

theorem Nested.pass (h : Nested scope r₀ trees opened r) (hpasses : r.Passes [] r') :
    Nested scope r₀ trees opened r' := by
  cases opened with
  | nil => exact Derives.pass h hpasses
  | cons e outer =>
      obtain ⟨r₁, houter, he⟩ := h
      exact ⟨r₁, houter, he.derives.pass hpasses, he.opening, he.needs, he.plain⟩

theorem Nested.left (h : Nested scope r₀ trees opened r) : r.left ≤ r₀.left := by
  induction opened generalizing r with
  | nil => exact Derives.left h
  | cons e outer ih =>
      obtain ⟨r₁, houter, he⟩ := h
      exact Nat.le_trans he.derives.left (ih houter)

namespace OpenElement.Stands

theorem needsEndTag (h : e.Stands scope outer r₁ r) : e.startTag.needsEndTag = true := by
  rw [Tree.needsEndTag, h.opening.closesItself, h.opening.tagName, h.needs]
  rfl

/-- Something is put into an open element. -/
theorem add (h : e.Stands scope outer r₁ r) (ht : Derives true r more r')
    (hmore : ∀ c ∈ more, c.isTag = false) : Stands scope outer r₁ { e with content := e.content ++ more } r' where
  derives := h.derives.append ht
  opening := h.opening
  needs := h.needs
  plain c hc := (List.mem_append.mp hc).elim (h.plain c) (hmore c)

/-- An open element is closed without an end tag. -/
theorem unclosed (h : e.Stands scope outer r₁ r) (inside : Bool) :
    Derives inside r₁ [e.close []] (r.note [MarkupRun.unclosed e]) := by
  have hs := h.opening.opens
  have hshape := ElementShape.unclosed e.startTag e.content hs h.needsEndTag h.plain
  have hreport : (e.close []).nestingReport? = some (MarkupRun.unclosed e) := by
    rw [OpenElement.close, List.append_nil, MarkupRun.unclosed, ← h.opening.tagName]
    exact nestingReport?_unclosed hs h.needsEndTag h.plain
  have hpaired : TextPaired inside (e.close []) := by
    rintro - s t - hclosing
    rw [OpenElement.close, List.append_nil] at hclosing
    exact absurd (hclosing.symm.trans (elementEnd?_cons hs h.plain)) (Option.some_ne_none _)
  have hcomplete : Completes inside (e.close []) r [MarkupRun.unclosed e] := by
    rw [← Option.toList_some, ← hreport]
    refine .element rfl ?_ hpaired h.opening.lead
    rw [OpenElement.close, List.append_nil]
    exact hshape
  refine .node hcomplete ?_
  rw [List.append_nil]
  exact h.derives

theorem isUnclosed (h : e.Stands scope outer r₁ r) : (e.close []).isUnclosed = true := by
  rw [OpenElement.close, List.append_nil]
  exact isUnclosed_cons h.opening.opens h.needsEndTag h.plain

/-- An open element is closed by an end tag of its name. -/
theorem closed (h : e.Stands scope outer r₁ r) {name : Text} {textTag inside : Bool}
    (ht : Derives true r [t] r') (hclosing : t.IsClosing textTag name)
    (hname : Text.sameIgnoringCase e.name name = true)
    (hpaired : t.kind? = some .markupEphemeral ↔ e.startTag.kind? = some .markupEphemeral ∧ inside = false ∧
      name = "text".toList ∧ ∀ c ∈ e.content, c.isUnclosed = false) :
    Derives inside r₁ [e.close [t]] r' := by
  have hs := h.opening.opens
  have hopens : (e.close [t]).elementStart? = some e.startTag := elementStart?_cons hs
  have hcloses : (e.close [t]).elementEnd? = some t := elementEnd?_concat hclosing.closes
  have hreport : (e.close [t]).nestingReport? = none := nestingReport?_closed hs hclosing.closes
  have hshape : ElementShape (e.close [t]).children := by
    refine .closed e.startTag e.content t hs h.needsEndTag h.plain hclosing.closes ?_
    rw [h.opening.tagName, hclosing.tagName]
    exact hname
  have htags : ∀ c ∈ (e.close [t]).children, c ∈ e.content ∨ c.isUnclosed = false := by
    intro c hc
    rcases List.mem_append.mp hc with hc | hc
    · rcases List.mem_cons.mp hc with rfl | hc
      · exact .inr (isUnclosed_of_tagKind (by decide) h.opening.kind)
      · exact .inl hc
    · rw [List.mem_singleton.mp hc]
      exact .inr (isUnclosed_of_tagKind (by decide) hclosing.kind)
  have hpaired' : TextPaired inside (e.close [t]) := by
    rintro - s' t' hs' ht'
    obtain rfl := Option.some.inj (hopens.symm.trans hs')
    obtain rfl := Option.some.inj (hcloses.symm.trans ht')
    rw [hpaired, hclosing.tagName]
    refine and_congr_right fun _ => and_congr_right fun _ => and_congr_right fun _ =>
      ⟨fun hc c hin => ?_, fun hc c hin => ?_⟩
    · exact (htags c hin).elim (hc c) id
    · exact hc c (List.mem_append_left _ (List.mem_cons_of_mem _ hin))
  have hcomplete := Completes.element (r := r') rfl hshape hpaired' h.opening.lead
  rw [hreport] at hcomplete
  exact .node hcomplete (h.derives.append ht)

end OpenElement.Stands

/-! ## Runs of markup -/

/-- Puts trees into the innermost of some open elements. -/
def fill (more : List Tree) : List OpenElement → List OpenElement
  | [] => []
  | e :: outer => { e with content := e.content ++ more } :: outer

@[simp] theorem fill_nil (opened : List OpenElement) : fill [] opened = opened := by
  cases opened with
  | nil => rfl
  | cons e outer => rw [fill, List.append_nil]

@[simp] theorem fill_fill (more further : List Tree) (opened : List OpenElement) :
    fill further (fill more opened) = fill (more ++ further) opened := by
  cases opened with
  | nil => rfl
  | cons e outer => rw [fill, fill, fill, List.append_assoc]

@[simp] theorem length_fill (more : List Tree) (opened : List OpenElement) :
    (fill more opened).length = opened.length := by
  cases opened with
  | nil => rfl
  | cons e outer => rfl

theorem drop_succ_fill (more : List Tree) (opened : List OpenElement) (n : Nat) :
    (fill more opened).drop (n + 1) = opened.drop (n + 1) := by
  cases opened with
  | nil => rfl
  | cons e outer => rfl

namespace MarkupRun

variable {m : MarkupRun}

theorem opened_place (m : MarkupRun) (t : Tree) : (m.place t).opened = fill [t] m.opened := by
  unfold place
  split
  · next h => rw [h, fill]
  · next e outer h => rw [h, fill]

/-- No element that is left open is in one that is still open. -/
def Settled (m : MarkupRun) : Prop := ∀ e ∈ m.opened, ∀ c ∈ e.content, c.isUnclosed = false

/-- The trees of a run are derived from where it starts, and its pending tokens follow them. -/
def Stands (scope : MarkupScope) (r₀ : Reader) (m : MarkupRun) (r : Reader) : Prop :=
  ∃ r₁, Nested scope r₀ m.trees m.opened r₁ ∧ r₁.Passes m.pending r

theorem nested_place (h : Nested scope r₀ m.trees m.opened r)
    (ht : Derives (!m.opened.isEmpty) r [t] r') (hplain : t.isTag = false) :
    Nested scope r₀ (m.place t).trees (m.place t).opened r' := by
  unfold place
  split
  · next hnone =>
      rw [hnone] at h ht
      rw [hnone]
      exact h.append ht
  · next e outer hopened =>
      rw [hopened] at h ht
      obtain ⟨r₁, houter, he⟩ := h
      refine ⟨r₁, houter, he.add ht fun c hc => ?_⟩
      rw [List.mem_singleton.mp hc]
      exact hplain

theorem Settled.place (h : m.Settled) (ht : t.isUnclosed = false) : (m.place t).Settled := by
  unfold Settled
  rw [opened_place]
  intro e he c hc
  cases hopened : m.opened with
  | nil =>
      rw [hopened] at he
      exact absurd he List.not_mem_nil
  | cons f outer =>
      rw [hopened, fill] at he
      rcases List.mem_cons.mp he with rfl | he
      · rcases List.mem_append.mp hc with hc | hc
        · exact h f (hopened ▸ List.mem_cons_self ..) c hc
        · rw [List.mem_singleton.mp hc]
          exact ht
      · exact h e (hopened ▸ List.mem_cons_of_mem f he) c hc

theorem Stands.addText (h : m.Stands scope r₀ r) (hts : r.Passes ts r') :
    (m.addText ts).Stands scope r₀ r' := by
  obtain ⟨r₁, hnested, hpending⟩ := h
  exact ⟨r₁, hnested, hpending.trans hts⟩

theorem Stands.flush (h : m.Stands scope r₀ r) : Nested scope r₀ m.flush.trees m.flush.opened r := by
  obtain ⟨r₁, hnested, hpending⟩ := h
  unfold MarkupRun.flush
  split
  · next hnone =>
      rw [List.isEmpty_iff.mp hnone] at hpending
      exact hnested.pass hpending
  · exact nested_place (m := { m with pending := [] }) hnested (Grammar.Gathers.node (.read hpending) rfl) rfl

theorem stands_of_nested (h : Nested scope r₀ m.trees m.opened r) (hpending : m.pending = []) :
    m.Stands scope r₀ r := ⟨r, h, hpending ▸ Passes.refl r⟩

theorem Settled.flush (h : m.Settled) : m.flush.Settled := by
  unfold MarkupRun.flush
  split
  · exact h
  · exact Settled.place (m := { m with pending := [] }) h rfl

theorem isEmpty_opened_flush (m : MarkupRun) : m.flush.opened.isEmpty = m.opened.isEmpty := by
  unfold MarkupRun.flush
  split
  · rfl
  · rw [opened_place]
    cases m.opened with
    | nil => rfl
    | cons e outer => rfl

/-- Text that becomes a node changes nothing about `<text>`. -/
theorem textTagAllowed_flush (m : MarkupRun) :
    Grammar.textTagAllowed scope m.flush = Grammar.textTagAllowed scope m := by
  unfold MarkupRun.flush
  split
  · rfl
  · unfold Grammar.textTagAllowed
    rw [opened_place]
    rcases hopened : m.opened with _ | ⟨e, _ | ⟨f, outer⟩⟩
    · rfl
    · rfl
    · rfl

theorem Stands.push (h : m.Stands scope r₀ r) (ht : Derives (!m.opened.isEmpty) r [t] r')
    (hplain : t.isTag = false) : (m.push t).Stands scope r₀ r' := by
  refine stands_of_nested (nested_place h.flush ?_ hplain) ((pending_place ..).trans m.pending_flush)
  rw [isEmpty_opened_flush]
  exact ht

theorem opened_placeElement_close (m : MarkupRun) (outer : List OpenElement) (e : OpenElement) (endTag : List Tree) :
    ({ m with opened := outer }.placeElement (e.close endTag)).opened = fill [e.close endTag] outer :=
  opened_place ..

theorem Stands.placeElement (h : Nested scope r₀ m.trees m.opened r) (hpending : m.pending = [])
    (ht : Derives (!m.opened.isEmpty) r [t] r') (hplain : t.isTag = false) :
    (m.placeElement t).Stands scope r₀ r' :=
  stands_of_nested (nested_place (m := { m with complete := m.complete || m.opened.isEmpty }) h ht hplain)
    ((pending_place ..).trans hpending)

/-- The innermost element is closed without an end tag. -/
theorem nested_unclosed (h : Nested scope r₀ m.trees (e :: outer) r) :
    let inner := { m with opened := outer }.placeElement (e.close [])
    Nested scope r₀ inner.trees inner.opened (r.note [unclosed e]) := by
  obtain ⟨r₁, houter, he⟩ := h
  exact nested_place (m := { m with opened := outer, complete := m.complete || outer.isEmpty }) houter
    (he.unclosed _) rfl

/-- The innermost elements are closed without end tags, and reported from the innermost on. -/
theorem closeInnermost_nested (n : Nat) (h : Nested scope r₀ m.trees m.opened r) :
    Nested scope r₀ (closeInnermost n m).1.trees (closeInnermost n m).1.opened
      (r.note (closeInnermost n m).2.reverse) := by
  induction n generalizing m r with
  | zero => exact h
  | succ n ih =>
      rw [closeInnermost]
      split
      · exact h
      · next e outer hopened =>
          rw [hopened] at h
          rw [List.reverse_cons, note_append]
          exact ih (nested_unclosed h)

/-- Closing the innermost elements without end tags only adds to what is in the next one, and leaves an
    unclosed element there if any is closed. -/
theorem closeInnermost_fill (n : Nat) (h : Nested scope r₀ m.trees m.opened r) (hn : n < m.opened.length) :
    ∃ more, (closeInnermost n m).1.opened = fill more (m.opened.drop n) ∧
      (n = 0 → more = []) ∧ (n ≠ 0 → ∃ c ∈ more, c.isUnclosed = true) := by
  induction n generalizing m r with
  | zero => exact ⟨[], by rw [fill_nil]; rfl, fun _ => rfl, fun h => absurd rfl h⟩
  | succ n ih =>
      rw [closeInnermost]
      split
      · next hnone =>
          rw [hnone] at hn
          exact absurd hn (Nat.not_lt_zero _)
      · next e outer hopened =>
          rw [hopened] at h hn ⊢
          have hinner := opened_placeElement_close m outer e []
          obtain ⟨more, hmore, -, hunclosed⟩ := ih (nested_unclosed h) (by
            rw [hinner, length_fill]
            exact Nat.lt_of_succ_lt_succ hn)
          rw [hinner] at hmore
          obtain ⟨r₁, -, he⟩ := h
          -- the element that is closed goes into the next one, which is closed too or stays open
          cases n with
          | zero =>
              rw [List.drop_zero, fill_fill] at hmore
              exact ⟨_, hmore, fun h => absurd h (Nat.succ_ne_zero 0), fun _ =>
                ⟨_, List.mem_append_left _ (List.mem_singleton_self _), he.isUnclosed⟩⟩
          | succ n =>
              rw [drop_succ_fill] at hmore
              exact ⟨more, hmore, fun h => absurd h (Nat.succ_ne_zero _), fun _ => hunclosed (Nat.succ_ne_zero n)⟩

/-- Whether `</text>` is written, where it closes an element, against whether `<text>` is. -/
theorem textTag_paired {n : Nat} (hdrop : m.opened.drop n = e :: outer) (hsettled : m.Settled)
    (hnone : n = 0 → more = []) (hsome : n ≠ 0 → ∃ c ∈ more, c.isUnclosed = true) {name : Text} :
    (Grammar.textTagAllowed scope m = true ∧ name = "text".toList) ↔
      ((Grammar.textTagAllowed scope { opened := outer } = true ∧ e.name = "text".toList) ∧
        (!outer.isEmpty) = false ∧ name = "text".toList ∧ ∀ c ∈ e.content ++ more, c.isUnclosed = false) := by
  rw [Grammar.textTagAllowed_iff, Grammar.textTagAllowed_iff]
  constructor
  · rintro ⟨⟨hscope, hopened⟩, hname⟩
    rcases hopened with hopened | ⟨f, hopened, hf⟩
    · rw [hopened, List.drop_nil] at hdrop
      exact nomatch hdrop
    · cases n with
      | succ n =>
          rw [hopened, List.drop_succ_cons, List.drop_nil] at hdrop
          exact nomatch hdrop
      | zero =>
          rw [hopened, List.drop_zero] at hdrop
          obtain ⟨rfl, rfl⟩ := List.cons.inj hdrop
          rw [hnone rfl, List.append_nil]
          exact ⟨⟨⟨hscope, .inl rfl⟩, hf⟩, rfl, hname, hsettled f (hopened ▸ List.mem_singleton_self f)⟩
  · rintro ⟨⟨⟨hscope, -⟩, he⟩, houter, hname, hclosed⟩
    obtain rfl : outer = [] := List.isEmpty_iff.mp (by simpa using houter)
    rcases Nat.eq_zero_or_pos n with rfl | hpos
    · exact ⟨⟨hscope, .inr ⟨e, hdrop, he⟩⟩, hname⟩
    · obtain ⟨c, hc, hunclosed⟩ := hsome (Nat.ne_of_gt hpos)
      rw [hclosed c (List.mem_append_right _ hc)] at hunclosed
      exact absurd hunclosed Bool.false_ne_true

/-- An end tag closes the innermost element of its name, and those inside it are reported. -/
theorem close?_stands (h : Nested scope r₀ m.trees m.opened r) (hpending : m.pending = []) (hsettled : m.Settled)
    {m' : MarkupRun} {name : Text} {reports : List Diagnostic}
    (ht : ∀ reports, Derives true (r.note reports) [t] (r'.note reports))
    (hclosing : t.IsClosing (Grammar.textTagAllowed scope m) name) (hclose : m.close? name t = some (m', reports)) :
    m'.Stands scope r₀ (r'.note reports.reverse) ∧ m'.Settled := by
  obtain ⟨n, hfind, hrest⟩ := Option.bind_eq_some_iff.mp hclose
  obtain ⟨hn, hname, -⟩ := List.findIdx?_eq_some_iff_getElem.mp hfind
  have hdrop := List.drop_eq_getElem_cons hn
  generalize m.opened[n] = e at hname hdrop
  generalize m.opened.drop (n + 1) = outer at hdrop
  have hinner := closeInnermost_nested n h
  have hnone := (pending_closeInnermost n m).trans hpending
  obtain ⟨more, hmore, hzero, hsome⟩ := closeInnermost_fill n h hn
  rw [hdrop, fill] at hmore
  generalize closeInnermost n m = inner at hrest hinner hnone hmore
  obtain ⟨m₁, reports₁⟩ := inner
  dsimp only at hrest hinner hnone hmore
  rw [hmore] at hrest hinner
  obtain ⟨rfl, rfl⟩ := Prod.mk.inj (Option.some.inj hrest)
  obtain ⟨r₁, houter, he⟩ := hinner
  have hclosed : Derives (!outer.isEmpty) r₁ [OpenElement.close { e with content := e.content ++ more } [t]]
      (r'.note reports₁.reverse) := by
    refine he.closed (ht _) hclosing hname ?_
    rw [hclosing.kind, he.opening.kind, Option.some.injEq, Option.some.injEq,
      Grammar.tagKind_eq_ephemeral (by decide), Grammar.tagKind_eq_ephemeral (by decide)]
    exact textTag_paired hdrop hsettled hzero hsome
  refine ⟨Stands.placeElement (m := { m₁ with opened := outer }) houter hnone hclosed rfl, ?_⟩
  refine Settled.place (m := { m₁ with opened := outer, complete := _ }) (fun f hf => hsettled f ?_)
    (isUnclosed_concat hclosing.closes)
  exact List.mem_of_mem_drop (hdrop ▸ List.mem_cons_of_mem e hf)

/-- At the end of a run all elements are closed. -/
theorem Stands.finish (h : m.Stands scope r₀ r) : Derives false r₀ m.finish.1 (r.note m.finish.2.reverse) := by
  have hall := closeInnermost_nested m.flush.opened.length h.flush
  rw [opened_closeInnermost_all] at hall
  exact hall

end MarkupRun

namespace Grammar

variable {c : Surroundings} {m : MarkupRun}

/-- How a run of markup stands between its turns. -/
structure MarkupAt (scope : MarkupScope) (r₀ : Reader) (m : MarkupRun) (r : Reader) : Prop where
  stands : m.Stands scope r₀ r
  settled : m.Settled

/-- A run goes on, with more text. -/
theorem MarkupAt.addText (h : MarkupAt scope r₀ m r) (hts : r.Passes ts r') :
    MarkupAt scope r₀ (m.addText ts) r' := ⟨h.stands.addText hts, h.settled⟩

theorem MarkupAt.pass (h : MarkupAt scope r₀ m r) (hpasses : r.Passes [] r') : MarkupAt scope r₀ m r' := by
  obtain ⟨⟨r₁, hnested, hpending⟩, hsettled⟩ := h
  refine ⟨⟨r₁, hnested, ?_⟩, hsettled⟩
  rw [← List.append_nil m.pending]
  exact hpending.trans hpasses

theorem MarkupAt.left (h : MarkupAt scope r₀ m r) : r.left ≤ r₀.left := by
  obtain ⟨⟨r₁, hnested, hpending⟩, -⟩ := h
  exact Nat.le_trans hpending.left hnested.left

/-- A tree that is neither a tag nor an unclosed element goes into the innermost open element. -/
theorem MarkupAt.push (h : MarkupAt scope r₀ m r) (ht : Derives (!m.opened.isEmpty) r [t] r')
    (hplain : t.isTag = false) (hclosed : t.isUnclosed = false) : MarkupAt scope r₀ (m.push t) r' :=
  ⟨h.stands.push ht hplain, h.settled.flush.place hclosed⟩

/-- An element that is a start tag only. -/
theorem alone_derives (ht : Derives true r [t] r') {textTag selfClosing : Bool} {name : Text}
    (hopening : t.IsOpening textTag name selfClosing) (hneeds : t.needsEndTag = false) (inside : Bool)
    (place : Span) : Derives inside r [Tree.spanning .element [t] place] r' := by
  have hopens := hopening.opens
  have hshape : ElementShape [t] := by
    refine .alone t hopens ?_
    rw [Tree.needsEndTag, Bool.and_eq_false_iff] at hneeds
    simpa using hneeds
  have hpaired : TextPaired inside (Tree.spanning .element [t] place) := by
    rintro - s u - hu
    exact nomatch (elementEnd?_cons hopens fun c hc => absurd hc List.not_mem_nil).symm.trans hu
  have hcomplete : Completes inside (Tree.spanning .element [t] place) r' _ :=
    .element rfl hshape hpaired hopening.lead
  rw [show (Tree.spanning .element [t] place).nestingReport? = none from nestingReport?_alone hopens hneeds]
    at hcomplete
  exact .node hcomplete ht

/-- An element that is an end tag only, which is reported unless the name is that of a void element. -/
theorem stray_derives (ht : Derives true r [t] r') {textTag : Bool} {name : Text}
    (hclosing : t.IsClosing textTag name) (inside : Bool) (place : Span) :
    Derives inside r [Tree.spanning .element [t] place]
      (r'.note (if isVoidElement name then none else some ⟨.unexpectedEndTag name, t.span⟩).toList) := by
  have hcloses := hclosing.closes
  have hpaired : TextPaired inside (Tree.spanning .element [t] place) := by
    rintro - s u hs -
    exact nomatch (elementStart?_stray hcloses).symm.trans hs
  have hcomplete : Completes inside (Tree.spanning .element [t] place) r' _ :=
    .element rfl (.stray t hcloses) hpaired hclosing.lead
  rw [show (Tree.spanning .element [t] place).nestingReport? = _ from nestingReport?_stray hcloses, hclosing.tagName]
    at hcomplete
  exact .node hcomplete ht

theorem takeTag_at (hc : c.Faithful) (hsound : c.Sound r.left) (h : MarkupAt scope r₀ m r)
    (hmark : r.tokenizer.peek?.map (·.kind) = some .openAngle) :
    Gives (takeTag c scope m) r (MarkupAt scope r₀) := by
  unfold takeTag
  rw [gives_bind, gives_here]
  generalize Span.empty _ _ = place
  rw [gives_bind]
  refine (tag_derives hc _ hsound hmark).mono ?_
  rintro tag r₁ htag
  have hnested := h.stands.flush
  have hsettled := h.settled.flush
  have hpending := m.pending_flush
  rw [← m.textTagAllowed_flush] at htag
  generalize m.flush = m' at hnested hsettled hpending htag ⊢
  -- an element of one tag goes into the innermost open one
  have halone {n : Tree} {r' : Reader} (hn : ∀ inside, Derives inside r [n] r') (hplain : n.isTag = false)
      (hclosed : n.isUnclosed = false) : MarkupAt scope r₀ (m'.placeElement n) r' :=
    ⟨.placeElement hnested hpending (hn _) hplain,
      MarkupRun.Settled.place (m := { m' with complete := _ }) hsettled hclosed⟩
  cases tag with
  | text ts => exact h.addText htag
  | opening name node selfClosing =>
      obtain ⟨hnode, hopening⟩ := htag
      dsimp only
      split
      · next hcomplete =>
          have hneeds : node.needsEndTag = false := by
            rw [Tree.needsEndTag, hopening.closesItself, hopening.tagName, ← Bool.not_or, hcomplete]
            rfl
          exact halone (fun inside => alone_derives hnode hopening hneeds inside place)
            rfl (isUnclosed_alone hopening.opens hneeds)
      · next hneeds =>
          obtain ⟨rfl, hvoid⟩ := Bool.or_eq_false_iff.mp (Bool.not_eq_true _ ▸ hneeds)
          refine ⟨⟨r₁, ⟨r, hnested, hnode, hopening, hvoid, fun c hc => absurd hc List.not_mem_nil⟩, ?_⟩, ?_⟩
          · show r₁.Passes m'.pending r₁
            rw [hpending]
            exact .refl r₁
          · intro e he c hc
            rcases List.mem_cons.mp he with rfl | he
            · exact absurd hc List.not_mem_nil
            · exact hsettled e he c hc
  | closing name node =>
      obtain ⟨hnode, hclosing⟩ := htag
      dsimp only
      split
      · next run' reports hclose =>
          have hrun := MarkupRun.close?_stands hnested hpending hsettled hnode hclosing hclose
          exact ⟨hrun.1, hrun.2⟩
      · have hstray := fun inside => stray_derives (hnode []) hclosing inside place
        have hclosed : (Tree.spanning .element [node] place).isUnclosed = false :=
          show (Tree.spanning .element ([] ++ [node]) place).isUnclosed = false from isUnclosed_concat hclosing.closes
        split
        · next hvoid =>
            rw [gives_bind, gives_report]
            rw [if_neg (by simpa using hvoid)] at hstray
            exact halone hstray rfl hclosed
        · next hvoid =>
            rw [if_pos (by simpa using hvoid)] at hstray
            exact halone hstray rfl hclosed

theorem takeTransition_at (hc : c.Faithful) (hsound : c.Sound r.left) (h : MarkupAt scope r₀ m r)
    (hkind : r.tokenizer.peek?.map (·.kind) = some .transition) :
    Gives (takeTransition c m) r (MarkupAt scope r₀) := by
  unfold takeTransition
  rw [gives_bind]
  refine escapeAhead_looks.gives fun escape => ?_
  split
  · simp only [gives_bind, gives_nodeOver, gives_pure]
    refine (bump_kind hkind).mono ?_
    rintro ts r₁ ⟨mark, rfl, -, hmark, -⟩
    refine (bump_passes r₁).mono fun second r₂ hsecond => ?_
    exact (h.push (Gathers.node (.read hmark) rfl) (isTag_single ..) rfl).addText hsecond
  · rw [gives_bind]
    refine addressAhead_looks.gives fun address => ?_
    split
    · rw [gives_bind]
      exact (bump_passes r).mono fun _ _ hts => h.addText hts
    · rw [gives_bind]
      refine ((codeTransition_derives hc hsound hkind (!m.opened.isEmpty)).and (codeTransition_kind c r)).mono ?_
      rintro code r₁ ⟨hcode, hblock⟩
      exact h.push hcode (isTag_of_kind hblock (by decide)) (isUnclosed_of_kind (by rw [hblock]; decide))

theorem lineRemainder_silent : Silent lineRemainder :=
  silent_look (fun _ => rfl) fun _ => silent_look (fun _ => rfl) fun _ => silent_ite (take_silent _) (silent_pure _)

theorem bumpPart_silent (offset : Nat) : Silent (bumpPart offset) := by
  intro r
  unfold Gives bumpPart
  split
  · rfl
  · split
    · rfl
    · rfl

/-- One step along a run of markup. -/
theorem markupTurn_at (hc : c.Faithful) (hsound : c.Sound r.left) {state : MarkupRun × Nat}
    (h : MarkupAt scope r₀ state.1 r) :
    Gives (markupTurn c scope state) r fun t r' => MarkupAt scope r₀ t.value.1 r' := by
  obtain ⟨m, depth⟩ := state
  refine gives_markupTurn ((switchTo_passes .html r).mono fun _ r₁ hswitch g hmove => ?_)
  have h := h.pass hswitch
  have hsound := hsound.mono hswitch.left
  have htext {g : Grammar (List Token)} {f : List Token → Turn (MarkupRun × Nat)}
      (hf : ∀ ts, (f ts).value.1 = m.addText ts) (hg : Gives g r₁ fun ts r' => r₁.Passes ts r') :
      Gives (do return f (← g)) r₁ fun t r' => MarkupAt scope r₀ t.value.1 r' := by
    rw [gives_bind]
    refine hg.mono fun ts r' hts => ?_
    rw [gives_pure, hf]
    exact h.addText hts
  cases hmove with
  | complete => exact htext (fun _ => rfl) (Reads.passes (lineRemainder_reads r₁) (lineRemainder_silent r₁))
  | stop => exact h
  | text | lineEnd => exact htext (fun _ => rfl) (bump_passes r₁)
  | part ht _ hend =>
      refine htext (fun _ => rfl) ?_
      exact Reads.passes (bumpPart_sectionEnd_reads ht hend) (bumpPart_silent _ r₁)
  | transition hkind =>
      rw [gives_bind]
      exact (takeTransition_at hc hsound h hkind).mono fun _ _ hrun => hrun
  | comment =>
      rw [gives_bind]
      refine (razorComment_derives (!m.opened.isEmpty) r₁).mono ?_
      rintro comment r₂ ⟨hcomment, hnode⟩
      exact h.push hcomment (isTag_of_kind hnode (by decide)) (isUnclosed_of_kind (by rw [hnode]; decide))
  | tag hkind =>
      rw [gives_bind]
      exact (takeTag_at hc hsound h hkind).mono fun _ _ hrun => hrun

/-- A run of markup is derived, and at its end all elements are closed. -/
theorem markupRun_derives (hc : c.Faithful) (hsound : c.Sound r.left) (scope : MarkupScope) :
    Gives (markupRun c scope) r (Derives false r) := by
  have hstart : MarkupAt scope r {} r :=
    ⟨⟨r, .refl false r, .refl r⟩, fun e he => absurd he List.not_mem_nil⟩
  unfold markupRun
  rw [gives_bind]
  refine (gives_loop_keeps (I := fun (state : MarkupRun × Nat) r' => MarkupAt scope r state.1 r')
    (fun _ r' h => h.pass (passes_stalled r')) (fun _ _ h => markupTurn_at hc (hsound.mono h.left) h)
    hstart).mono ?_
  rintro ⟨m, depth⟩ r' hm
  rw [gives_bind, gives_reportAll]
  exact hm.stands.finish

/-- The rule for markup makes derivations. -/
theorem markup_derives (fileKind : FileKind) (scope : MarkupScope) (r : Reader) :
    Gives (markup fileKind scope) r (Derives false r) := by
  refine gives_markup_of_run (P := fun _ r trees r' => Derives false r trees r') fun scope r ih => ?_
  refine markupRun_derives (fun inner r' => gives_around (ih inner r') ?_) (around_sound fileKind r) scope
  exact Derives.read (passes_stalled r')

end Grammar

/-- A parsed document is derived, and its diagnostics are what has been reported on the way. -/
theorem ParsedDocument.derives_root (kind : FileKind) (d : Source) :
    ∃ r, Derives false (readerOf d) [(parse kind d).root] r ∧
      (parse kind d).diagnostics = arrange r.reported.reverse (parse kind d).root :=
  ⟨_, ((Grammar.markup_derives kind .document (readerOf d)).simple rfl).simple rfl, rfl⟩

end RazorLang
