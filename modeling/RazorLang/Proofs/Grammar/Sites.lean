import RazorLang.Proofs.Editor.Buffer
import RazorLang.Proofs.Grammar.Reader
import RazorLang.Proofs.Token.Flaws
import RazorLang.TagHelper.Resolution

/-!
# Where reports point

A source `Holds` a span that names the source and starts and ends at places of its text. What rules make of a
source, trees and reports, consists of such spans: tokens do, nothing else makes spans but from those of tokens
and from the place of the reader, and the span over some trees starts and ends where some of them do.

A rule `Keeps` a property of its results if a reader that is at a place of the source, and has reported only
spans that the source holds, is so behind the rule too. Rules are put together with `Keeps.bind` and
`keeps_loop`.
-/

namespace RazorLang

open Text

namespace Source

variable {d : Source} {s place : Span} {t : Token} {ts us : List Token} {children more : List Tree}

/-! ## Spans of a source -/

/-- A span of the source, from place to place. -/
structure Holds (d : Source) (s : Span) : Prop where
  path : s.path = d.path
  start : (Buffer.mk d.text).IsPlace s.start.offset
  stop : (Buffer.mk d.text).IsPlace s.stop

/-- All reports are on spans of the source. -/
def HoldsAll (d : Source) (reports : List Diagnostic) : Prop := ∀ x ∈ reports, d.Holds x.span

theorem holdsAll_nil : d.HoldsAll [] := fun _ h => absurd h List.not_mem_nil

theorem HoldsAll.append {reports others : List Diagnostic} (h : d.HoldsAll reports)
    (h' : d.HoldsAll others) : d.HoldsAll (reports ++ others) := by
  intro x hx
  exact (List.mem_append.mp hx).elim (h x) (h' x)

theorem holds_empty {l : Location} (h : (Buffer.mk d.text).IsPlace l.offset) :
    d.Holds (Span.empty d.path l) := ⟨rfl, h, h⟩

/-- A token of the source; what it reports is there too. -/
structure HoldsToken (d : Source) (t : Token) : Prop where
  span : d.Holds t.span
  reports : d.HoldsAll t.diagnostics

/-- Tokens of the source. -/
def HoldsTokens (d : Source) (ts : List Token) : Prop := ∀ t ∈ ts, d.HoldsToken t

theorem holdsTokens_nil : d.HoldsTokens [] := fun _ h => absurd h List.not_mem_nil

theorem HoldsTokens.append (h : d.HoldsTokens ts) (h' : d.HoldsTokens us) : d.HoldsTokens (ts ++ us) := by
  intro t ht
  exact (List.mem_append.mp ht).elim (h t) (h' t)

/-- What a label reports is in the source. -/
def HoldsLabel (d : Source) (label : Option Label) : Prop :=
  ∀ l ∈ label, d.HoldsAll (Resolution.labelDiagnostics l)

theorem holdsLabel_none : d.HoldsLabel none := nofun

theorem holdsLabel_some {l : Label} (h : d.HoldsAll (Resolution.labelDiagnostics l)) :
    d.HoldsLabel (some l) := by
  intro label hlabel
  rw [← Option.some.inj hlabel]
  exact h

/-- A tree of the source: its span and those of all trees and tokens in it are, and what its labels report. -/
inductive HoldsTree (d : Source) : Tree → Prop where
  | token {t : Token} (h : d.HoldsToken t) : HoldsTree d (.token t)
  | node {kind : NodeKind} {span : Span} {label : Option Label} {children : List Tree}
      (hspan : d.Holds span) (hlabel : d.HoldsLabel label) (hchildren : ∀ c ∈ children, HoldsTree d c) :
      HoldsTree d (.node kind span label children)

/-- Trees of the source. -/
def HoldsTrees (d : Source) (ts : List Tree) : Prop := ∀ t ∈ ts, d.HoldsTree t

theorem holdsTrees_nil : d.HoldsTrees [] := fun _ h => absurd h List.not_mem_nil

theorem HoldsTrees.append (h : d.HoldsTrees children) (h' : d.HoldsTrees more) :
    d.HoldsTrees (children ++ more) := by
  intro t ht
  exact (List.mem_append.mp ht).elim (h t) (h' t)

theorem HoldsTree.single {t : Tree} (h : d.HoldsTree t) : d.HoldsTrees [t] :=
  List.forall_mem_singleton.mpr h

theorem HoldsTree.cons {t : Tree} (h : d.HoldsTree t) (h' : d.HoldsTrees children) :
    d.HoldsTrees (t :: children) := List.forall_mem_cons.mpr ⟨h, h'⟩

theorem HoldsTokens.toTrees (h : d.HoldsTokens ts) : d.HoldsTrees (ts.map .token) := by
  intro t ht
  obtain ⟨u, hu, rfl⟩ := List.mem_map.mp ht
  exact .token (h u hu)

theorem HoldsTree.span {t : Tree} (h : d.HoldsTree t) : d.Holds t.span := by
  cases h with
  | token h => exact h.span
  | node hspan hlabel hchildren => exact hspan

/-- Some trees start and end where one of them does, also if the last does not end behind the start. -/
theorem holds_spanOf (h : d.HoldsTrees children) (hplace : children = [] → d.Holds place) :
    d.Holds (Tree.spanOf children place) := by
  cases children with
  | nil => exact ⟨(hplace rfl).path, (hplace rfl).start, (hplace rfl).start⟩
  | cons first rest =>
      have hfirst := (h first List.mem_cons_self).span
      obtain ⟨last, hlast⟩ : ∃ last, (first :: rest).getLast? = some last :=
        ⟨_, List.getLast?_eq_getLast_of_ne_nil (List.cons_ne_nil first rest)⟩
      have hmem := (h last (List.mem_of_getLast? hlast)).span
      rw [Tree.spanOf, hlast]
      refine ⟨hfirst.path, hfirst.start, ?_⟩
      show (Buffer.mk d.text).IsPlace
        (first.span.start.offset + (last.span.stop - first.span.start.offset))
      -- A last tree that ends before the first one starts leaves an empty span there.
      rcases Nat.le_total first.span.start.offset last.span.stop with hle | hle
      · rw [Nat.add_sub_of_le hle]
        exact hmem.stop
      · rw [Nat.sub_eq_zero_of_le hle]
        exact hfirst.start

theorem holdsTree_spanning (kind : NodeKind) {label : Option Label} (h : d.HoldsTrees children)
    (hplace : children = [] → d.Holds place) (hlabel : d.HoldsLabel label) :
    d.HoldsTree (Tree.spanning kind children place label) := .node (holds_spanOf h hplace) hlabel h

/-- A node over some trees, at a place of the source. -/
theorem HoldsTrees.spanning (kind : NodeKind) (h : d.HoldsTrees children) (hplace : d.Holds place) :
    d.HoldsTree (Tree.spanning kind children place) :=
  holdsTree_spanning kind h (fun _ => hplace) holdsLabel_none

/-- A node over at least one tree. -/
theorem HoldsTrees.spanning_cons (kind : NodeKind) (h : d.HoldsTrees children) (hne : children ≠ []) :
    d.HoldsTree (Tree.spanning kind children place) :=
  holdsTree_spanning kind h (fun heq => absurd heq hne) holdsLabel_none

theorem HoldsTokens.overTokens (kind : NodeKind) (h : d.HoldsTokens ts) (hplace : d.Holds place) :
    d.HoldsTree (Tree.overTokens kind ts place) := HoldsTrees.spanning kind h.toTrees hplace

/-! ## Readers of a source -/

/-- A reader at a place of the source, which has reported spans of the source. -/
structure IsReader (d : Source) (r : Reader) : Prop where
  path : r.tokenizer.path = d.path
  place : ∃ u, d.text = u ++ r.tokenizer.rest ∧ Text.size u = r.tokenizer.place.offset ∧
    ¬ PartsBreak u r.tokenizer.rest
  reported : d.HoldsAll r.reported

variable {r r' : Reader}

theorem IsReader.isPlace (h : d.IsReader r) : (Buffer.mk d.text).IsPlace r.tokenizer.place.offset := by
  obtain ⟨u, htext, hsize, hwhole⟩ := h.place
  exact ⟨u, _, htext, hsize, hwhole⟩

/-- Behind some of the text ahead there is a place, unless it ends in the middle of a line break. -/
theorem IsReader.place_behind {u v : Text} (h : d.IsReader r) (hrest : r.tokenizer.rest = u ++ v)
    (hwhole : ¬ PartsBreak u v) :
    ∃ w, d.text = w ++ v ∧ Text.size w = r.tokenizer.place.offset + Text.size u ∧ ¬ PartsBreak w v := by
  obtain ⟨w, htext, hsize, hbefore⟩ := h.place
  refine ⟨w ++ u, ?_, ?_, ?_⟩
  · rw [htext, hrest, List.append_assoc]
  · rw [size_append, hsize]
  · -- Behind nothing, the place is the one of the reader; else only what is behind the reader matters.
    by_cases hnil : u = []
    · rw [hrest, hnil, List.nil_append] at hbefore
      rw [hnil, List.append_nil]
      exact hbefore
    · rintro ⟨hlast, hhead⟩
      rw [List.getLast?_append_of_ne_nil w hnil] at hlast
      exact hwhole ⟨hlast, hhead⟩

/-- Some of the text ahead, which does not end in the middle of a line break, is a span of the source. -/
theorem IsReader.holds_ahead {u v : Text} (h : d.IsReader r) (hrest : r.tokenizer.rest = u ++ v)
    (hwhole : ¬ PartsBreak u v) : d.Holds ⟨r.tokenizer.path, r.tokenizer.place, Text.size u⟩ := by
  obtain ⟨w, htext, hsize, hbefore⟩ := h.place_behind hrest hwhole
  exact ⟨h.path, h.isPlace, w, v, htext, hsize, hbefore⟩

/-- A reader that has read on, and has reported nothing else. -/
theorem IsReader.read (h : d.IsReader r) (hreads : r.Reads ts r') (hreported : r'.reported = r.reported) :
    d.IsReader r' where
  path := hreads.path.trans h.path
  place := by
    rw [hreads.run.offset]
    exact h.place_behind hreads.run.content hreads.run.whole
  reported := hreported ▸ h.reported

/-- A token that has been read, whose flaw marks the start of the text. -/
theorem IsReader.holdsToken (h : d.IsReader r) (hreads : r.Reads [t] r')
    (hflaw : ∀ f, t.flaw = some f → f.Marks r.tokenizer.rest) : d.HoldsToken t := by
  have hspan : t.span = ⟨r.tokenizer.path, r.tokenizer.place, Text.size t.content⟩ :=
    hreads.run.head_span
  refine ⟨?_, fun x hx => ?_⟩
  · have hcontent := hreads.run.content
    have hwhole := hreads.run.whole
    rw [contentOf_cons, contentOf_nil, List.append_nil] at hcontent hwhole
    rw [hspan]
    exact h.holds_ahead hcontent hwhole
  · obtain ⟨f, hf, rfl⟩ := List.mem_map.mp hx
    obtain ⟨u, v, hrest, hsize, hnot⟩ := hflaw f (Option.mem_toList.mp hf)
    rw [hspan, ← hsize]
    exact h.holds_ahead hrest fun hparts => hnot (List.mem_of_getLast? hparts.1)

end Source

namespace Grammar

open Source

variable {α β : Type} {d : Source} {P : α → Prop} {Q : β → Prop} {g : Grammar α} {ts : List Token}

/-! ## Rules -/

/-- A rule makes something with a property of a source, and leaves a reader of it. -/
def Keeps (d : Source) (g : Grammar α) (P : α → Prop) : Prop :=
  ∀ r, d.IsReader r → Gives g r fun a r' => P a ∧ d.IsReader r'

theorem keeps_pure {a : α} (h : P a) : Keeps d (pure a) P := fun _ hr => ⟨h, hr⟩

theorem Keeps.bind {f : α → Grammar β} (h : Keeps d g P) (hf : ∀ a, P a → Keeps d (f a) Q) :
    Keeps d (g >>= f) Q := by
  intro r hr
  obtain ⟨ha, hr'⟩ := h r hr
  exact hf _ ha _ hr'

/-- Looking ahead changes nothing. -/
theorem keeps_look {f : α → Grammar β} (hlook : Looks g) (hf : ∀ a, Keeps d (f a) Q) :
    Keeps d (g >>= f) Q := by
  intro r hr
  refine hf _ _ ?_
  rw [show (g r).2 = r from hlook r]
  exact hr

theorem keeps_ite {c : Prop} [Decidable c] {g' : Grammar α} (h : c → Keeps d g P)
    (h' : ¬ c → Keeps d g' P) : Keeps d (if c then g else g') P := by
  split
  · next hc => exact h hc
  · next hc => exact h' hc

theorem keeps_loop {turn : α → Grammar (Turn α)} {a : α}
    (hturn : ∀ a, P a → Keeps d (turn a) fun t => P t.value) (ha : P a) : Keeps d (loop turn a) P := by
  intro r hr
  refine gives_loop_keeps (I := fun a r => P a ∧ d.IsReader r) ?_ ?_ ⟨ha, hr⟩
  · rintro a r ⟨ha, hr⟩
    exact ⟨ha, hr.path, hr.place, hr.reported⟩
  · rintro a r ⟨ha, hr⟩
    exact hturn a ha r hr

/-! ## The rules that all others are made of -/

theorem here_keeps : Keeps d here d.Holds := by
  intro r hr
  refine gives_here.mpr ⟨?_, hr⟩
  rw [hr.path]
  exact holds_empty hr.isPlace

theorem switchTo_keeps (language : Language) : Keeps d (switchTo language) fun _ => True := by
  intro r hr
  exact ⟨trivial, hr.read (switchTo_reads language r) rfl⟩

theorem report_keeps (cause : Cause) {span : Span} (h : d.Holds span) :
    Keeps d (report cause span) fun _ => True := by
  intro r hr
  refine ⟨trivial, hr.path, hr.place, ?_⟩
  exact List.forall_mem_cons.mpr ⟨h, hr.reported⟩

theorem reportAll_keeps {reports : List Diagnostic} (h : d.HoldsAll reports) :
    Keeps d (reportAll reports) fun _ => True := by
  intro r hr
  refine ⟨trivial, hr.path, hr.place, HoldsAll.append ?_ hr.reported⟩
  intro x hx
  exact h x (List.mem_reverse.mp hx)

/-- A rule that reports something where the reader is, and goes on. -/
theorem report_here_keeps (cause : Cause) {f : Unit → Grammar β} (hf : ∀ u, Keeps d (f u) Q) :
    Keeps d (do let place ← here; let u ← report cause place; f u) Q :=
  here_keeps.bind fun _ hplace => (report_keeps cause hplace).bind fun u _ => hf u

theorem bump_keeps : Keeps d bump d.HoldsTokens := by
  intro r hr
  obtain ⟨hreads, -, -⟩ := bump_reads r
  unfold Gives bump at *
  cases hnext : r.tokenizer.next? with
  | none => exact ⟨holdsTokens_nil, hr⟩
  | some p =>
      rw [hnext] at hreads
      refine ⟨List.forall_mem_singleton.mpr (hr.holdsToken hreads ?_), hr.read hreads rfl⟩
      intro f hf
      have hcontent := Tokenizer.next?_content hnext
      rw [← hcontent]
      exact (Tokenizer.marks_of_next? hnext hf).append _

/-- Where part of a token is taken, the flaw stays with it. -/
theorem bumpPart_keeps {offset : Nat} {r : Reader} (hr : d.IsReader r)
    (hwhole : ∀ t u v, r.tokenizer.peek? = some t →
      Text.splitAtByte? offset t.content = some (u, v) → v.head? ≠ some '\n') :
    Gives (bumpPart offset) r fun ts r' => d.HoldsTokens ts ∧ d.IsReader r' := by
  have hreads := bumpPart_reads hwhole
  unfold Gives bumpPart at *
  cases hnext : r.tokenizer.next? with
  | none => exact ⟨holdsTokens_nil, hr⟩
  | some p =>
      obtain ⟨t, s⟩ := p
      rw [hnext] at hreads
      have hflaw (f : Flaw) (hf : t.flaw = some f) : f.Marks r.tokenizer.rest := by
        rw [← Tokenizer.next?_content hnext]
        exact (Tokenizer.marks_of_next? hnext hf).append _
      dsimp only at hreads ⊢
      cases hsplit : t.splitAt? offset with
      | none =>
          rw [hsplit] at hreads
          exact ⟨List.forall_mem_singleton.mpr (hr.holdsToken hreads hflaw), hr.read hreads rfl⟩
      | some parts =>
          rw [hsplit] at hreads
          have hsame : parts.1.flaw = t.flaw := by
            unfold Token.splitAt? at hsplit
            split at hsplit
            · rw [← Option.some.inj hsplit]
            · exact nomatch hsplit
          refine ⟨List.forall_mem_singleton.mpr (hr.holdsToken hreads ?_), hr.read hreads rfl⟩
          rw [hsame]
          exact hflaw

theorem take_keeps (n : Nat) : Keeps d (take n) d.HoldsTokens := by
  induction n with
  | zero => exact keeps_pure holdsTokens_nil
  | succ n ih =>
      refine bump_keeps.bind fun first hfirst => ?_
      exact ih.bind fun rest hrest => keeps_pure (hfirst.append hrest)

theorem takeWhile_keeps (p : TokenKind → Bool) : Keeps d (takeWhile p) d.HoldsTokens := by
  refine keeps_loop ?_ holdsTokens_nil
  intro ts hts
  refine keeps_look (fun _ => rfl) fun kind => ?_
  cases kind with
  | none => exact keeps_pure hts
  | some kind =>
      refine keeps_ite (fun _ => ?_) fun _ => keeps_pure hts
      exact bump_keeps.bind fun taken htaken => keeps_pure (hts.append htaken)

theorem takeTrivia_keeps (acrossLines : Bool) : Keeps d (takeTrivia acrossLines) d.HoldsTokens :=
  takeWhile_keeps _

theorem takeBalanced_keeps (opener closer : TokenKind) :
    Keeps d (takeBalanced opener closer) fun taken => d.HoldsTokens taken.1 := by
  refine Keeps.bind (P := fun state : List Token × Nat × Bool => d.HoldsTokens state.1)
    (keeps_loop ?_ holdsTokens_nil) fun state hstate => keeps_pure hstate
  rintro ⟨ts, depth, closed⟩ hts
  refine bump_keeps.bind fun taken htaken => ?_
  cases taken with
  | nil => exact keeps_pure hts
  | cons t rest =>
      have hmore := HoldsTokens.append hts htaken
      refine keeps_ite (fun _ => keeps_pure hmore) fun _ => ?_
      refine keeps_ite (fun _ => ?_) fun _ => keeps_pure hmore
      exact keeps_ite (fun _ => keeps_pure hmore) fun _ => keeps_pure hmore

theorem nodeOver_keeps (kind : NodeKind) (h : d.HoldsTokens ts) : Keeps d (nodeOver kind ts) d.HoldsTree :=
  here_keeps.bind fun _ hplace => keeps_pure (h.overTokens kind hplace)

theorem razorComment_keeps : Keeps d razorComment d.HoldsTree := by
  refine Keeps.bind (P := fun state : List Token × Nat => d.HoldsTokens state.1)
    (keeps_loop ?_ holdsTokens_nil) fun state hstate => nodeOver_keeps _ hstate
  rintro ⟨ts, transitions⟩ hts
  refine keeps_look (fun _ => rfl) fun kind => ?_
  cases kind with
  | none => exact keeps_pure hts
  | some kind =>
      refine keeps_ite (fun _ => keeps_pure hts) fun _ => ?_
      exact bump_keeps.bind fun taken htaken => keeps_pure (HoldsTokens.append hts htaken)

end Grammar

end RazorLang
