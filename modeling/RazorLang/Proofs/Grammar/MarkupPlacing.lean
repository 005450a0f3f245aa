import RazorLang.Proofs.Grammar.Placing
import RazorLang.Tree.Document

/-!
# Where the rules of markup put their trees

The trees of a run of markup lie one behind the other if its open elements are read as the trees that they
have so far, the outermost first (`openTrees`): closing an element makes one node of its start tag and its
content, which stand last (`MarkupRun.IsAt.close`). Markup inside of code is read by the same rule from a
place further on, hence the induction on what is left to read in `markup_builds`.
-/

namespace RazorLang

open RazorLang.Tree RazorLang.Grammar

variable {Q : Tree → Prop} {n l m k : Nat} {ts : List Token} {t : Tree}

/-! ## The nesting of elements -/

/-- The trees of some open elements, given from the innermost on, in the order of the source. -/
def openTrees : List OpenElement → List Tree
  | [] => []
  | e :: outer => openTrees outer ++ (e.startTag :: e.content)

namespace MarkupRun

variable {run : MarkupRun}

/-- The trees of a run of markup, those of its open elements and its text lie one behind the other. -/
def IsAt (Q : Tree → Prop) (l : Nat) (run : MarkupRun) (m : Nat) : Prop :=
  Lies Q l (run.trees ++ openTrees run.opened ++ run.pending.map .token) m

theorem isAt_start : IsAt Q l {} l := lies_nil

theorem isAt_iff_of_pending_eq_nil (h : run.pending = []) :
    run.IsAt Q l m ↔ Lies Q l (run.trees ++ openTrees run.opened) m := by
  rw [IsAt, h, List.map_nil, List.append_nil]

theorem IsAt.addText (h : run.IsAt Q l m) (hts : TokensLie m ts k) : (run.addText ts).IsAt Q l k := by
  unfold IsAt MarkupRun.addText
  rw [List.map_append, ← List.append_assoc]
  exact h.append hts.lies

theorem IsAt.place (h : run.IsAt Q l m) (hpending : run.pending = []) (ht : Lies Q m [t] k) :
    (run.place t).IsAt Q l k := by
  rw [isAt_iff_of_pending_eq_nil hpending] at h
  rw [isAt_iff_of_pending_eq_nil (by rw [pending_place, hpending])]
  have hmore := h.append ht
  unfold MarkupRun.place
  split
  · next hopened =>
      rw [hopened, openTrees, List.append_nil] at hmore
      rw [hopened, openTrees, List.append_nil]
      exact hmore
  · next e outer hopened =>
      rw [hopened, openTrees] at hmore
      simpa only [openTrees, List.append_assoc, List.cons_append] using hmore

theorem IsAt.flush (hQ : Admits Q) (h : run.IsAt Q l m) : run.flush.IsAt Q l m := by
  unfold MarkupRun.flush
  split
  · exact h
  · next hsome =>
      obtain ⟨k, htrees, hpending⟩ := lies_append.mp h
      refine IsAt.place (m := k) ?_ rfl (hQ.overSome (by decide) hsome hpending)
      rw [isAt_iff_of_pending_eq_nil rfl]
      exact htrees

theorem IsAt.push (hQ : Admits Q) (h : run.IsAt Q l m) (ht : Lies Q m [t] k) :
    (run.push t).IsAt Q l k := (h.flush hQ).place run.pending_flush ht

theorem IsAt.placeElement (h : run.IsAt Q l m) (hpending : run.pending = []) (ht : Lies Q m [t] k) :
    (run.placeElement t).IsAt Q l k := by
  have hrun : ({ run with complete := run.complete || run.opened.isEmpty } : MarkupRun).IsAt Q l m := h
  exact hrun.place hpending ht

theorem IsAt.openElement (h : run.IsAt Q l m) (hpending : run.pending = []) (name : Text)
    (ht : Lies Q m [t] k) : (run.openElement name t).IsAt Q l k := by
  rw [isAt_iff_of_pending_eq_nil hpending] at h
  rw [isAt_iff_of_pending_eq_nil (show (run.openElement name t).pending = [] from hpending)]
  show Lies Q l (run.trees ++ (openTrees run.opened ++ [t])) k
  rw [← List.append_assoc]
  exact h.append ht

/-- The node of the innermost element stands where its start tag and its content did. -/
theorem IsAt.close (hQ : Admits Q) (h : run.IsAt Q l m) (hpending : run.pending = []) {e : OpenElement}
    {outer : List OpenElement} (hopened : run.opened = e :: outer) {endTag : List Tree}
    (hend : Lies Q m endTag k) :
    ({ run with opened := outer }.placeElement (e.close endTag)).IsAt Q l k := by
  rw [isAt_iff_of_pending_eq_nil hpending, hopened, openTrees, ← List.append_assoc] at h
  obtain ⟨i, houter, hinside⟩ := lies_append.mp h
  have hrun : ({ run with opened := outer } : MarkupRun).IsAt Q l i := by
    rw [isAt_iff_of_pending_eq_nil (show ({ run with opened := outer } : MarkupRun).pending = [] from hpending)]
    exact houter
  exact hrun.placeElement hpending (hQ.spanning_cons (by decide) (hinside.append hend))

theorem IsAt.closeInnermost (hQ : Admits Q) (h : run.IsAt Q l m) (hpending : run.pending = []) (n : Nat) :
    (run.closeInnermost n).1.IsAt Q l m := by
  induction n generalizing run with
  | zero => exact h
  | succ n ih =>
      rw [MarkupRun.closeInnermost]
      split
      · exact h
      · next e outer hopened =>
          refine ih (h.close hQ hpending hopened lies_nil) ?_
          rw [MarkupRun.placeElement, pending_place]
          exact hpending

theorem IsAt.close? (hQ : Admits Q) (h : run.IsAt Q l m) (hpending : run.pending = [])
    {run' : MarkupRun} {name : Text} {endTag : Tree} {reports : List Diagnostic}
    (hend : Lies Q m [endTag] k) (hclose : run.close? name endTag = some (run', reports)) :
    run'.IsAt Q l k := by
  obtain ⟨n, hfind, hrest⟩ := Option.bind_eq_some_iff.mp hclose
  have hn : n < run.opened.length := (List.findIdx?_eq_some_iff_getElem.mp hfind).1
  have hrun := h.closeInnermost hQ hpending n
  have hnone := (pending_closeInnermost n run).trans hpending
  have hlength := length_opened_closeInnermost n run
  generalize run.closeInnermost n = inner at hrest hrun hnone hlength
  obtain ⟨run₁, inside⟩ := inner
  dsimp only at hrest hrun hnone hlength
  split at hrest
  · next hopened =>
      rw [hopened, List.length_nil] at hlength
      omega
  · next e outer hopened =>
      obtain ⟨rfl, -⟩ := Prod.mk.inj (Option.some.inj hrest)
      exact hrun.close hQ hnone hopened hend

theorem IsAt.finish (hQ : Admits Q) (h : run.IsAt Q l m) : Lies Q l run.finish.1 m := by
  have hrun := (h.flush hQ).closeInnermost hQ run.pending_flush run.flush.opened.length
  rw [isAt_iff_of_pending_eq_nil ((pending_closeInnermost _ _).trans run.pending_flush),
    opened_closeInnermost_all, openTrees, List.append_nil] at hrun
  exact hrun

end MarkupRun

namespace Grammar

variable {c : Surroundings} {run : MarkupRun}

/-! ## Tags -/

/-- What the next `<` begins lies between two places. -/
def Tag.IsAt (Q : Tree → Prop) (l : Nat) : Tag → Nat → Prop
  | .opening _ t _, m => Lies Q l [t] m
  | .closing _ t, m => Lies Q l [t] m
  | .text ts, m => TokensLie l ts m

theorem startTagTurn_builds (hQ : Admits Q) (hc : c.Builds Q n) {s : StartTagState}
    (h : Lies Q l s.trees m) : Builds n (startTagTurn c s) m fun t k => Lies Q l t.value.trees k := by
  intro r hr hl
  refine gives_startTagTurn fun g hmove => ?_
  cases hmove with
  | stop => exact builds_pure h r hr hl
  | token | mark | close => exact (bump_builds.bind fun _ _ htaken => builds_pure (h.append htaken.lies)) r hr hl
  | selfClose => exact ((take_builds 2).bind fun _ _ htaken => builds_pure (h.append htaken.lies)) r hr hl
  | code =>
      refine ((codeTransition_builds hQ hc).bind fun code k hcode => ?_) r hr hl
      exact builds_silent (switchTo_reads _) fun _ => builds_pure (h.append hcode)
  | comment => exact ((razorComment_builds hQ).bind fun _ _ hcomment => builds_pure (h.append hcomment)) r hr hl

/-- The node of a start tag is over trees that lie one behind the other. -/
theorem startTag_shape (hQ : Admits Q) (hc : c.Builds Q n) (textTag : Bool) :
    Builds n (startTag c textTag) l fun t m => ∃ name kind trees place closing,
      t = .opening name (Tree.spanning (tagKind .startTag textTag kind) trees place) closing ∧
      Lies Q l trees m ∧ place.start.offset = l := by
  refine builds_here fun place hplace => (take_builds 2).bind fun lead i hlead => ?_
  refine Builds.bind (P := fun (s : StartTagState) k => Lies Q l s.trees k)
    (builds_loop (fun _ _ => startTagTurn_builds hQ hc) hlead.lies) fun s k hs => builds_pure ?_
  exact ⟨_, _, _, _, _, rfl, hs, hplace⟩

theorem isPlaced_tagKind_endTag (textTag : Bool) (name : Text) :
    IsPlaced (tagKind .endTag textTag name) := by
  unfold tagKind
  split <;> decide

theorem tagKind_startTag_ne (textTag : Bool) (name : Text) :
    tagKind .startTag textTag name ≠ .explicitExpression := by
  unfold tagKind
  split <;> decide

theorem startTag_builds (hQ : Admits Q) (hc : c.Builds Q n) (textTag : Bool) {r : Reader}
    (hr : r.left ≤ n) (hsound : c.Sound r.left) (hat : AtTagName r) :
    Gives (startTag c textTag) r fun t r' =>
      Tag.IsAt Q r.tokenizer.place.offset t r'.tokenizer.place.offset ∧ r'.left ≤ n := by
  obtain ⟨⟨name, kind, trees, place, closing, heq, hlies, hplace⟩, hr'⟩ :=
    startTag_shape hQ hc textTag r hr rfl
  unfold Gives
  rw [heq]
  refine ⟨hlies.spanning (fun _ => hplace) (hQ.startTag _ ?_ ?_ ?_), hr'⟩
  · exact hlies.tiles.isContiguous_spanning fun _ => hplace
  · exact fun hhollow => tagKind_startTag_ne _ _ (Option.some.inj hhollow.kind)
  · exact ⟨c, textTag, r, name, closing, hsound, hat, heq⟩

theorem endTag_builds (hQ : Admits Q) (textTag : Bool) :
    Builds n (endTag textTag) l fun t m => Tag.IsAt Q l t m := by
  refine builds_here fun place hplace => (take_builds 2).bind fun lead i hlead => ?_
  refine (builds_tokens (single_reads .text)).bind fun named i hnamed => ?_
  refine (builds_tokens (takeTrivia_reads true)).bind fun blank i hblank => ?_
  refine (builds_tokens (single_reads .closeAngle)).bind fun closing m hclosing => builds_pure ?_
  have htokens := ((hlead.append hnamed).append hblank).append hclosing
  exact hQ.spanning (isPlaced_tagKind_endTag _ _) htokens.lies fun _ => hplace

theorem tag_builds (hQ : Admits Q) (hc : c.Builds Q n) (textTag : Bool) {r : Reader} (hr : r.left ≤ n)
    (hsound : c.Sound r.left) (hlanguage : r.tokenizer.language = .html)
    (hangle : r.tokenizer.peek?.map (·.kind) = some .openAngle) :
    Gives (tag c textTag) r fun t r' =>
      Tag.IsAt Q r.tokenizer.place.offset t r'.tokenizer.place.offset ∧ r'.left ≤ n := by
  have htext {g : Grammar (List Token)} {f : List Token → List Token}
      (hg : ∀ r, Gives g r fun ts r' => r.Reads ts r') :
      Builds n (do return .text (← g)) r.tokenizer.place.offset
        fun t m => Tag.IsAt Q r.tokenizer.place.offset t m :=
    (builds_tokens hg).bind fun _ _ hts => builds_pure hts
  have hbump := htext (f := id) fun r => (bump_reads r).mono fun _ _ h => h.1
  have hdeclaration := htext (f := id) fun r => (declaration_reads r).mono fun _ _ h => h.1
  have hcomment := htext (f := id) fun r => (htmlComment_reads r).mono fun _ _ h => h.1
  unfold tag
  rw [gives_bind, gives_peekNth?]
  split
  · next t ht =>
      split
      · exact endTag_builds hQ textTag r hr rfl
      · rw [gives_bind, gives_kindAt?]
        split
        · exact hcomment r hr rfl
        · exact hdeclaration r hr rfl
      · exact hdeclaration r hr rfl
      · next hkind =>
          split
          · exact startTag_builds hQ hc textTag hr hsound ⟨hlanguage, hangle, by rw [ht, ← hkind]; rfl⟩
          · exact hbump r hr rfl
      · exact hbump r hr rfl
  · exact hbump r hr rfl

/-! ## Runs of markup -/

theorem takeTag_builds (hQ : Admits Q) (hc : c.Builds Q n) (scope : MarkupScope) {r : Reader}
    (h : run.IsAt Q l r.tokenizer.place.offset) (hr : r.left ≤ n) (hsound : c.Sound r.left)
    (hlanguage : r.tokenizer.language = .html)
    (hangle : r.tokenizer.peek?.map (·.kind) = some .openAngle) :
    Gives (takeTag c scope run) r fun run r' => run.IsAt Q l r'.tokenizer.place.offset ∧ r'.left ≤ n := by
  unfold takeTag
  rw [gives_bind, gives_here, gives_bind]
  refine (tag_builds hQ hc _ hr hsound hlanguage hangle).mono ?_
  rintro t r' ⟨ht, hr'⟩
  have hflush := h.flush hQ
  have halone {node : Tree} (hnode : Lies Q r.tokenizer.place.offset [node] r'.tokenizer.place.offset)
      (place : Span) : (run.flush.placeElement (Tree.spanning .element [node] place)).IsAt Q l
        r'.tokenizer.place.offset :=
    hflush.placeElement run.pending_flush (hQ.spanning_cons (by decide) hnode)
  cases t with
  | text ts => exact ⟨h.addText ht, hr'⟩
  | opening name node selfClosing =>
      dsimp only
      split
      · exact ⟨halone ht _, hr'⟩
      · exact ⟨hflush.openElement run.pending_flush name ht, hr'⟩
  | closing name node =>
      dsimp only
      split
      · next run' reports hclose =>
          have hrun := hflush.close? hQ run.pending_flush ht hclose
          exact (builds_silent (reportAll_reads _) fun _ => builds_pure hrun) r' hr' rfl
      · refine (builds_ite (fun _ => ?_) fun _ => ?_) r' hr' rfl
        · exact builds_silent (report_reads _ _) fun _ => builds_pure (halone ht _)
        · exact builds_pure (halone ht _)

theorem takeTransition_builds (hQ : Admits Q) (hc : c.Builds Q n) (h : run.IsAt Q l m) :
    Builds n (takeTransition c run) m fun run k => run.IsAt Q l k := by
  refine builds_look escapeAhead_looks fun _ => builds_ite (fun _ => ?_) fun _ => ?_
  · refine bump_builds.bind fun mark i hmark => (nodeOver_builds hQ (by decide) hmark).bind fun first i hfirst => ?_
    exact bump_builds.bind fun _ _ hsecond => builds_pure ((h.push hQ hfirst).addText hsecond)
  · refine builds_look addressAhead_looks fun _ => builds_ite (fun _ => ?_) fun _ => ?_
    · exact bump_builds.bind fun _ _ hts => builds_pure (h.addText hts)
    · exact (codeTransition_builds hQ hc).bind fun _ _ hcode => builds_pure (h.push hQ hcode)

theorem markupTurn_builds (hQ : Admits Q) (hc : c.Builds Q n) (hsound : c.Sound n) (scope : MarkupScope)
    {state : MarkupRun × Nat} (h : state.1.IsAt Q l m) :
    Builds n (markupTurn c scope state) m fun t k => t.value.1.IsAt Q l k := by
  obtain ⟨run, depth⟩ := state
  rintro r hr rfl
  refine gives_markupTurn (((switchTo_reads .html r).and (switchTo_language .html r)).mono ?_)
  rintro _ r₁ ⟨hswitch, hlanguage⟩ g hmove
  have hr₁ := Nat.le_trans hswitch.left hr
  have hl := hswitch.offset_eq
  rw [← hl] at h
  cases hmove with
  | complete =>
      refine ((builds_tokens lineRemainder_reads).bind fun ts k hts => ?_) r₁ hr₁ rfl
      exact builds_pure (MarkupRun.IsAt.addText h hts)
  | stop => exact ⟨h, hr₁⟩
  | text | lineEnd =>
      exact (bump_builds.bind fun _ _ hts => builds_pure (MarkupRun.IsAt.addText h hts)) r₁ hr₁ rfl
  | part ht _ hend =>
      -- what part of a text is taken depends on the text itself
      rw [gives_bind]
      refine (bumpPart_sectionEnd_reads ht hend).mono fun ts r₂ hts => ?_
      exact ⟨MarkupRun.IsAt.addText h (tokensLie_of_run hts.run), Nat.le_trans hts.left hr₁⟩
  | transition => exact ((takeTransition_builds hQ hc h).bind fun _ _ hrun => builds_pure hrun) r₁ hr₁ rfl
  | comment =>
      exact ((razorComment_builds hQ).bind fun _ _ ht => builds_pure (MarkupRun.IsAt.push hQ h ht)) r₁ hr₁ rfl
  | tag hkind =>
      rw [gives_bind]
      exact takeTag_builds hQ hc scope h hr₁ (hsound.mono hr₁) hlanguage hkind

/-- A run of markup builds trees that lie one behind the other. -/
theorem markupRun_builds (hQ : Admits Q) (hc : c.Builds Q n) (hsound : c.Sound n) (scope : MarkupScope) :
    Builds n (markupRun c scope) l fun trees m => Lies Q l trees m := by
  refine Builds.bind (P := fun (state : MarkupRun × Nat) m => state.1.IsAt Q l m)
    (builds_loop (fun _ _ => markupTurn_builds hQ hc hsound scope) MarkupRun.isAt_start) fun state m hstate => ?_
  exact builds_silent (reportAll_reads _) fun _ => builds_pure (hstate.finish hQ)

/-- The rule for markup builds trees that lie one behind the other. -/
theorem markup_builds (hQ : Admits Q) (fileKind : FileKind) (scope : MarkupScope) (l : Nat) :
    Builds n (markup fileKind scope) l fun trees m => Lies Q l trees m := by
  rintro r hr rfl
  -- the bound is set to what is left at the start of each run, so that the induction passes it on
  have hall : Gives (markup fileKind scope) r fun trees r' =>
      Lies Q r.tokenizer.place.offset trees r'.tokenizer.place.offset ∧ r'.left ≤ r.left := by
    refine gives_markup_of_run (P := fun _ r trees r' =>
      Lies Q r.tokenizer.place.offset trees r'.tokenizer.place.offset ∧ r'.left ≤ r.left) fun scope r ih => ?_
    refine markupRun_builds hQ ?_ (around_sound fileKind r) scope r (Nat.le_refl _) rfl
    rintro inner _ r' hr' rfl
    refine gives_around (fun hlt => ?_) ⟨lies_nil, hr'⟩
    exact (ih inner r' hlt).mono fun _ _ h => ⟨h.1, Nat.le_trans h.2 hr'⟩
  exact hall.mono fun _ _ h => ⟨h.1, Nat.le_trans h.2 hr⟩

end Grammar

namespace ParsedDocument

/-- What the rules of the grammar admit holds of all nodes of a document. -/
theorem nodes_parse (hQ : Admits Q) (kind : FileKind) (d : Source) :
    ∀ n ∈ (parse kind d).root.nodes, Q n := by
  have htrees := (markup_builds hQ kind .document 0 (readerOf d) (Nat.le_refl _) rfl).1
  let block := Tree.spanning .markupBlock (markup kind .document (readerOf d)).1 (Span.empty d.path .start)
  have hblock : Lies Q 0 [block] _ := hQ.spanning (by decide) htrees fun _ => rfl
  have hroot : Lies Q 0 [Tree.spanning .document [block] (Span.empty d.path .start)] _ :=
    hQ.spanning_cons (by decide) hblock
  exact fun n hn => hroot.nodes n (mem_nodesAll.mpr ⟨_, List.mem_singleton_self _, hn⟩)

end ParsedDocument

end RazorLang
