import RazorLang.Proofs.Grammar.Reports

/-!
# What the rules of markup report

The trees of a run of markup, its open elements and its text are of the source (`MarkupRun.IsOf`), so that
elements which are closed without an end tag are reported on spans of the source. Markup inside of code is read
by the same rule from a place further on, hence the induction on what is left to read in `markup_keeps`.
-/

namespace RazorLang

open Source

variable {d : Source}

/-! ## The nesting of elements -/

/-- An open element of the source. -/
structure OpenElement.IsOf (d : Source) (e : OpenElement) : Prop where
  startTag : d.HoldsTree e.startTag
  content : d.HoldsTrees e.content

theorem OpenElement.IsOf.close {e : OpenElement} (h : e.IsOf d) {endTag : List Tree}
    (hend : d.HoldsTrees endTag) : d.HoldsTree (e.close endTag) :=
  ((h.startTag.cons h.content).append hend).spanning_cons _ (List.cons_ne_nil _ _)

namespace MarkupRun

variable {m : MarkupRun} {t : Tree} {ts : List Token}

/-- A run of markup of the source. -/
structure IsOf (d : Source) (m : MarkupRun) : Prop where
  trees : d.HoldsTrees m.trees
  opened : ∀ e ∈ m.opened, e.IsOf d
  pending : d.HoldsTokens m.pending

theorem isOf_start : IsOf d {} := ⟨holdsTrees_nil, nofun, holdsTokens_nil⟩

theorem IsOf.addText (h : m.IsOf d) (hts : d.HoldsTokens ts) : (m.addText ts).IsOf d :=
  ⟨h.trees, h.opened, h.pending.append hts⟩

theorem IsOf.place (h : m.IsOf d) (ht : d.HoldsTree t) : (m.place t).IsOf d := by
  unfold MarkupRun.place
  split
  · exact ⟨h.trees.append ht.single, h.opened, h.pending⟩
  · next e outer hopened =>
      have hall := h.opened
      rw [hopened] at hall
      obtain ⟨he, houter⟩ := List.forall_mem_cons.mp hall
      exact ⟨h.trees, List.forall_mem_cons.mpr ⟨⟨he.startTag, he.content.append ht.single⟩, houter⟩,
        h.pending⟩

theorem IsOf.flush (h : m.IsOf d) : m.flush.IsOf d := by
  unfold MarkupRun.flush
  split
  · exact h
  · next hsome =>
      refine IsOf.place ⟨h.trees, h.opened, holdsTokens_nil⟩ (h.pending.toTrees.spanning_cons _ ?_)
      intro hnone
      exact hsome (List.isEmpty_iff.mpr (List.map_eq_nil_iff.mp hnone))

theorem IsOf.push (h : m.IsOf d) (ht : d.HoldsTree t) : (m.push t).IsOf d := h.flush.place ht

theorem IsOf.placeElement (h : m.IsOf d) (ht : d.HoldsTree t) : (m.placeElement t).IsOf d :=
  IsOf.place ⟨h.trees, h.opened, h.pending⟩ ht

theorem IsOf.openElement (h : m.IsOf d) (name : Text) (ht : d.HoldsTree t) :
    (m.openElement name t).IsOf d :=
  ⟨h.trees, List.forall_mem_cons.mpr ⟨⟨ht, holdsTrees_nil⟩, h.opened⟩, h.pending⟩

/-- The innermost element is closed and put where it belongs. -/
theorem IsOf.close (h : m.IsOf d) {e : OpenElement} {outer : List OpenElement}
    (hopened : m.opened = e :: outer) {endTag : List Tree} (hend : d.HoldsTrees endTag) :
    ({ m with opened := outer }.placeElement (e.close endTag)).IsOf d := by
  have hall := h.opened
  rw [hopened] at hall
  obtain ⟨he, houter⟩ := List.forall_mem_cons.mp hall
  exact IsOf.placeElement ⟨h.trees, houter, h.pending⟩ (he.close hend)

theorem IsOf.closeInnermost (h : m.IsOf d) (n : Nat) :
    (m.closeInnermost n).1.IsOf d ∧ d.HoldsAll (m.closeInnermost n).2 := by
  induction n generalizing m with
  | zero => exact ⟨h, holdsAll_nil⟩
  | succ n ih =>
      rw [MarkupRun.closeInnermost]
      split
      · exact ⟨h, holdsAll_nil⟩
      · next e outer hopened =>
          obtain ⟨hrun, hreports⟩ := ih (h.close hopened holdsTrees_nil)
          have he := h.opened e (hopened ▸ List.mem_cons_self)
          exact ⟨hrun, List.forall_mem_cons.mpr ⟨he.startTag.span, hreports⟩⟩

theorem IsOf.close? (h : m.IsOf d) {m' : MarkupRun} {name : Text} {endTag : Tree}
    {reports : List Diagnostic} (hend : d.HoldsTree endTag)
    (hclose : m.close? name endTag = some (m', reports)) : m'.IsOf d ∧ d.HoldsAll reports := by
  obtain ⟨n, -, hrest⟩ := Option.bind_eq_some_iff.mp hclose
  -- The elements inside the one that is closed come first, and only they are reported.
  obtain ⟨hrun, hreports⟩ := h.closeInnermost n
  generalize m.closeInnermost n = inner at hrest hrun hreports
  obtain ⟨m₁, inside⟩ := inner
  dsimp only at hrest hrun hreports
  split at hrest
  · obtain ⟨rfl, rfl⟩ := Prod.mk.inj (Option.some.inj hrest)
    exact ⟨hrun, hreports⟩
  · next e outer hopened =>
      obtain ⟨rfl, rfl⟩ := Prod.mk.inj (Option.some.inj hrest)
      exact ⟨hrun.close hopened hend.single, hreports⟩

theorem IsOf.finish (h : m.IsOf d) : d.HoldsTrees m.finish.1 ∧ d.HoldsAll m.finish.2 := by
  obtain ⟨hrun, hreports⟩ := h.flush.closeInnermost m.flush.opened.length
  exact ⟨hrun.trees, hreports⟩

end MarkupRun

namespace Grammar

variable {c : Surroundings} {m : MarkupRun}

/-! ## Tags -/

theorem declaration_keeps : Keeps d declaration d.HoldsTokens := by
  refine keeps_loop (fun ts hts => bump_keeps.bind fun taken htaken => ?_) holdsTokens_nil
  cases taken with
  | nil => exact keeps_pure hts
  | cons t rest =>
      have hmore := HoldsTokens.append hts htaken
      exact keeps_ite (fun _ => keeps_pure hmore) fun _ => keeps_pure hmore

theorem htmlComment_keeps : Keeps d htmlComment d.HoldsTokens := by
  refine (take_keeps 3).bind fun lead hlead => keeps_loop (fun ts hts => ?_) hlead
  refine bump_keeps.bind fun taken htaken => ?_
  cases taken with
  | nil => exact keeps_pure hts
  | cons t rest =>
      have hmore := HoldsTokens.append hts htaken
      refine keeps_look (fun _ => rfl) fun _ => keeps_ite (fun _ => ?_) fun _ => keeps_pure hmore
      exact bump_keeps.bind fun _ hclosing => keeps_pure (hmore.append hclosing)

/-- A tag of the source. -/
def Tag.IsOf (d : Source) : Tag → Prop
  | .opening _ node _ => d.HoldsTree node
  | .closing _ node => d.HoldsTree node
  | .text tokens => d.HoldsTokens tokens

theorem startTagTurn_keeps (hc : c.Keeps d) {s : StartTagState} (h : d.HoldsTrees s.trees) :
    Keeps d (startTagTurn c s) fun t => d.HoldsTrees t.value.trees := by
  intro r hr
  refine gives_startTagTurn fun g hmove => ?_
  cases hmove with
  | stop => exact keeps_pure h r hr
  | token | mark | close => exact bump_keeps.bind (fun _ htaken => keeps_pure (h.append htaken.toTrees)) r hr
  | selfClose => exact (take_keeps 2).bind (fun _ htaken => keeps_pure (h.append htaken.toTrees)) r hr
  | code =>
      refine (codeTransition_keeps hc).bind (fun code hcode => ?_) r hr
      exact (switchTo_keeps _).bind fun _ _ => keeps_pure (h.append hcode.single)
  | comment => exact razorComment_keeps.bind (fun _ hcomment => keeps_pure (h.append hcomment.single)) r hr

theorem startTag_keeps (hc : c.Keeps d) (textTag : Bool) : Keeps d (startTag c textTag) (Tag.IsOf d) := by
  refine here_keeps.bind fun place hplace => (take_keeps 2).bind fun lead hlead => ?_
  refine Keeps.bind (P := fun s : StartTagState => d.HoldsTrees s.trees)
    (keeps_loop (fun _ => startTagTurn_keeps hc) hlead.toTrees) fun s hs => keeps_pure ?_
  exact hs.spanning _ hplace

theorem endTag_keeps (textTag : Bool) : Keeps d (endTag textTag) (Tag.IsOf d) := by
  refine here_keeps.bind fun place hplace => (take_keeps 2).bind fun lead hlead => ?_
  refine (single_keeps .text).bind fun named hnamed => (takeTrivia_keeps true).bind fun blank hblank => ?_
  refine (single_keeps .closeAngle).bind fun closing hclosing => keeps_pure ?_
  exact (((hlead.append hnamed).append hblank).append hclosing).overTokens _ hplace

theorem tag_keeps (hc : c.Keeps d) (textTag : Bool) : Keeps d (tag c textTag) (Tag.IsOf d) := by
  have htext {g : Grammar (List Token)} (hg : Keeps d g d.HoldsTokens) :
      Keeps d (do return .text (← g)) (Tag.IsOf d) := hg.bind fun _ hts => keeps_pure hts
  unfold tag
  refine keeps_look (fun _ => rfl) fun next => ?_
  cases next with
  | none => exact htext bump_keeps
  | some t =>
      dsimp only
      split
      · exact endTag_keeps textTag
      · refine keeps_look (fun _ => rfl) fun _ => ?_
        exact keeps_ite (fun _ => htext htmlComment_keeps) fun _ => htext declaration_keeps
      · exact htext declaration_keeps
      · exact keeps_ite (fun _ => startTag_keeps hc textTag) fun _ => htext bump_keeps
      · exact htext bump_keeps

/-! ## Runs of markup -/

theorem lineRemainder_keeps : Keeps d lineRemainder d.HoldsTokens := by
  refine keeps_look (fun _ => rfl) fun n => keeps_look (fun _ => rfl) fun _ => ?_
  exact keeps_ite (fun _ => take_keeps _) fun _ => keeps_pure holdsTokens_nil

theorem takeTag_keeps (hc : c.Keeps d) (scope : MarkupScope) (h : m.IsOf d) :
    Keeps d (takeTag c scope m) (MarkupRun.IsOf d) := by
  refine here_keeps.bind fun place hplace => (tag_keeps hc _).bind fun t ht => ?_
  have halone {node : Tree} (hnode : d.HoldsTree node) :
      (m.flush.placeElement (Tree.spanning .element [node] place)).IsOf d :=
    h.flush.placeElement (hnode.single.spanning _ hplace)
  cases t with
  | text ts => exact keeps_pure (h.addText ht)
  | opening name node selfClosing =>
      refine keeps_ite (fun _ => keeps_pure (halone ht)) fun _ => ?_
      exact keeps_pure (h.flush.openElement name ht)
  | closing name node =>
      dsimp only
      split
      · next m' reports hclose =>
          obtain ⟨hrun, hreports⟩ := h.flush.close? ht hclose
          exact (reportAll_keeps hreports).bind fun _ _ => keeps_pure hrun
      · refine keeps_ite (fun _ => ?_) fun _ => keeps_pure (halone ht)
        exact (report_keeps _ (HoldsTree.span ht)).bind fun _ _ => keeps_pure (halone ht)

theorem takeTransition_keeps (hc : c.Keeps d) (h : m.IsOf d) :
    Keeps d (takeTransition c m) (MarkupRun.IsOf d) := by
  refine keeps_look escapeAhead_looks fun _ => keeps_ite (fun _ => ?_) fun _ => ?_
  · refine bump_keeps.bind fun mark hmark => (nodeOver_keeps _ hmark).bind fun first hfirst => ?_
    exact bump_keeps.bind fun _ hsecond => keeps_pure ((h.push hfirst).addText hsecond)
  · refine keeps_look addressAhead_looks fun _ => keeps_ite (fun _ => ?_) fun _ => ?_
    · exact bump_keeps.bind fun _ hts => keeps_pure (h.addText hts)
    · exact (codeTransition_keeps hc).bind fun _ hcode => keeps_pure (h.push hcode)

theorem markupTurn_keeps (hc : c.Keeps d) (scope : MarkupScope) {state : MarkupRun × Nat}
    (h : state.1.IsOf d) : Keeps d (markupTurn c scope state) fun t => t.value.1.IsOf d := by
  obtain ⟨m, depth⟩ := state
  intro r hr
  refine gives_markupTurn ((switchTo_keeps .html r hr).mono ?_)
  rintro _ r₁ ⟨-, hr₁⟩ g hmove
  cases hmove with
  | complete => exact lineRemainder_keeps.bind (fun _ hts => keeps_pure (MarkupRun.IsOf.addText h hts)) r₁ hr₁
  | stop => exact ⟨h, hr₁⟩
  | text | lineEnd => exact bump_keeps.bind (fun _ hts => keeps_pure (MarkupRun.IsOf.addText h hts)) r₁ hr₁
  | @part t _ ht _ hend =>
      -- what part of a text is taken depends on the text itself
      rw [gives_bind]
      refine (bumpPart_keeps hr₁ fun t' u v ht' hcut => ?_).mono fun ts r₂ hts => ?_
      · obtain rfl : t' = t := Option.some.inj (ht'.symm.trans ht)
        exact head?_ne_of_sectionEnd hend hcut
      · exact ⟨MarkupRun.IsOf.addText h hts.1, hts.2⟩
  | transition => exact (takeTransition_keeps hc h).bind (fun _ hm => keeps_pure hm) r₁ hr₁
  | comment => exact razorComment_keeps.bind (fun _ ht => keeps_pure (MarkupRun.IsOf.push h ht)) r₁ hr₁
  | tag => exact (takeTag_keeps hc scope h).bind (fun _ hm => keeps_pure hm) r₁ hr₁

theorem markupRun_keeps (hc : c.Keeps d) (scope : MarkupScope) :
    Keeps d (markupRun c scope) d.HoldsTrees := by
  refine Keeps.bind (P := fun state : MarkupRun × Nat => state.1.IsOf d)
    (keeps_loop (fun _ => markupTurn_keeps hc scope) MarkupRun.isOf_start) fun state hstate => ?_
  obtain ⟨htrees, hreports⟩ := hstate.finish
  exact (reportAll_keeps hreports).bind fun _ _ => keeps_pure htrees

theorem markup_keeps (fileKind : FileKind) (scope : MarkupScope) :
    Keeps d (markup fileKind scope) d.HoldsTrees := by
  intro r hr
  refine gives_markup_of_run (P := fun _ r trees r' => d.IsReader r → d.HoldsTrees trees ∧ d.IsReader r')
    (fun scope r ih => ?_) hr
  intro hr
  refine markupRun_keeps (fun inner r' hr' => ?_) scope r hr
  exact gives_around (fun hlt => ih inner r' hlt hr') ⟨holdsTrees_nil, hr'.path, hr'.place, hr'.reported⟩

end Grammar

end RazorLang
