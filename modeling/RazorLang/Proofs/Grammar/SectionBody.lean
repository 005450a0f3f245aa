import RazorLang.Proofs.Grammar.Derivation
import RazorLang.Proofs.Grammar.MarkupInBlock
import RazorLang.Proofs.Grammar.PlainCSharp
import RazorLang.Proofs.Text.Nesting

/-!
# The body of a section

A section without tags and transitions ends before the first brace that closes nothing in it
(`ParsedDocument.section_body`), wherever the tokenizer of markup cuts its text: braces stand in tokens of text
alone (`nests_of_kind`), and the number of those that are open is kept from one token to the next
(`markupTurn_section`).
-/

namespace RazorLang

open RazorLang.Tree RazorLang.Grammar Reader

/-- Braces of a text: none closes what is not open, and `n` are left open. -/
abbrev Text.Nests (u : Text) (n : Nat) : Prop := NestsBy id '\x7b' '\x7d' u n

/-- A node of a kind over some text. -/
def Tree.Spells (t : Tree) (kind : NodeKind) (w : Text) : Prop := t.kind? = some kind ∧ t.text = w

/-- At most one node, of a kind, over some text. -/
def Tree.IsPiece (trees : List Tree) (kind : NodeKind) (w : Text) : Prop :=
  (trees = [] ∧ w = []) ∨ ∃ t, trees = [t] ∧ t.Spells kind w

theorem Tree.spells_overTokens {kind : NodeKind} {ts : List Token} {w : Text} (h : contentOf ts = w) (place : Span) :
    (overTokens kind ts place).Spells kind w :=
  ⟨rfl, by rw [Tree.text, tokens_overTokens, h]⟩

theorem Tree.IsPiece.text_eq {trees : List Tree} {kind : NodeKind} {w : Text} (h : IsPiece trees kind w) :
    trees.flatMap text = w := by
  rcases h with ⟨rfl, rfl⟩ | ⟨t, rfl, -, rfl⟩
  · rfl
  · exact List.flatMap_singleton text t

namespace Grammar

variable {r r' r₀ : Reader} {c : Surroundings}

/-! ## Braces -/

/-- Some text, behind what has been read of a section: either the brace that ends the section is in it, or it leaves
    braces open. -/
def EndsSection (read t : Text) (offset : Nat) : Nat ⊕ Nat → Prop
  | .inl n => ∃ u v, t = u ++ '\x7d' :: v ∧ n = offset + Text.size u ∧ (read ++ u).Nests 0
  | .inr depth => (read ++ t).Nests depth

theorem EndsSection.cons {read t : Text} {x : Char} {offset : Nat} {e : Nat ⊕ Nat}
    (h : EndsSection (read ++ [x]) t (offset + x.utf8Size) e) : EndsSection read (x :: t) offset e := by
  cases e with
  | inl n =>
      obtain ⟨u, v, rfl, rfl, hnests⟩ := h
      refine ⟨x :: u, v, rfl, ?_, by rwa [List.append_assoc] at hnests⟩
      rw [Text.size_cons, Nat.add_assoc]
  | inr depth => rwa [EndsSection, List.append_assoc] at h

/-- The braces are counted character by character. -/
theorem sectionEnd_ends {read t : Text} {depth : Nat} (h : read.Nests depth) (offset : Nat) :
    EndsSection read t offset (sectionEnd offset depth t) := by
  fun_induction sectionEnd offset depth t generalizing read with
  | case1 => rwa [EndsSection, List.append_nil]
  | case2 offset depth x t hopen ih => exact (ih (h.opens (by decide) (beq_iff_eq.mp hopen))).cons
  | case3 offset x t hopen hclose =>
      refine ⟨[], t, ?_, rfl, by rwa [List.append_nil]⟩
      rw [beq_iff_eq.mp hclose, List.nil_append]
  | case4 offset x t hopen hclose d ih => exact (ih (h.closes (by decide) (beq_iff_eq.mp hclose))).cons
  | case5 offset depth x t hopen hclose ih =>
      refine (ih (h.other ?_ ?_)).cons
      · exact fun heq => hopen (beq_iff_eq.mpr heq)
      · exact fun heq => hclose (beq_iff_eq.mpr heq)

/-- A token of markup that is not text has no braces. -/
theorem nests_of_kind {read : Text} {depth : Nat} (h : read.Nests depth) {x : Char} {rest : Text}
    (hkind : (Html.cut x rest).kind ≠ .text) :
    (read ++ x :: rest.take (Html.cut x rest).more).Nests depth := by
  refine h.others fun y hy => ⟨?_, ?_⟩
  · rintro rfl
    exact Html.notMem_cut (by decide) (by decide) hkind hy
  · rintro rfl
    exact Html.notMem_cut (by decide) (by decide) hkind hy

/-! ## The text of the body -/

/-- Taking part of a token. -/
theorem bumpPart_eq {t : Token} {s : Tokenizer} (hnext : r.tokenizer.next? = some (t, s)) {u v : Text}
    (ht : t.content = u ++ v) (hu : u ≠ []) (hv : v ≠ []) :
    bumpPart (Text.size u) r = ([{ t with content := u, span := ⟨t.span.path, t.span.start, Text.size u⟩ }],
      { r with
        tokenizer := { s with mode := .data, rest := v ++ s.rest, place := t.span.start.advance u }
        before := u.getLast?.or r.before }) := by
  have hsplit : t.splitAt? (Text.size u) =
      some ({ t with content := u, span := ⟨t.span.path, t.span.start, Text.size u⟩ },
        { kind := t.kind, content := v, span := ⟨t.span.path, t.span.start.advance u, Text.size v⟩ }) := by
    unfold Token.splitAt?
    rw [ht, Text.splitAtByte?_append]
    cases u with
    | nil => exact absurd rfl hu
    | cons x u =>
        cases v with
        | nil => exact absurd rfl hv
        | cons y v => rfl
  unfold bumpPart
  rw [hnext]
  dsimp only
  rw [hsplit]

/-- Text before the brace that ends a section is taken off the token that the brace is in. -/
theorem bumpPart_takes (hr : InMarkup r) (hat : '@' ∉ r.tokenizer.rest) {t : Token}
    (ht : r.tokenizer.peek? = some t) {u v : Text} (hcontent : t.content = u ++ '\x7d' :: v) (hu : u ≠ []) :
    Gives (bumpPart (Text.size u)) r fun ts r' => Takes r ts r' ∧ contentOf ts = u ∧
      ∃ w, r'.tokenizer.rest = '\x7d' :: w := by
  have hplain := not_isRazor_of_head hr (head?_ne_of_notMem hat) (by rw [ht]; rfl)
  have hreads : Gives (bumpPart (Text.size u)) r r.Reads := by
    refine bumpPart_reads fun t' u' v' ht' hcut => ?_
    obtain rfl : t' = t := Option.some.inj (ht'.symm.trans ht)
    rw [hcontent, Text.splitAtByte?_append] at hcut
    rw [← (Prod.mk.inj (Option.some.inj hcut)).2]
    exact fun h => nomatch h
  obtain ⟨⟨t, s⟩, hnext, rfl⟩ := Option.map_eq_some_iff.mp ht
  obtain ⟨c, rest, -, -, -, -, hflaw, -, hhtml⟩ := Tokenizer.next?_of_not_isRazor hr.language hnext hplain
  have hrest := Tokenizer.next?_content hnext
  rw [hcontent] at hrest
  unfold Gives at hreads ⊢
  rw [bumpPart_eq hnext hcontent hu (List.cons_ne_nil _ v)] at hreads ⊢
  refine ⟨⟨⟨hreads, fun t' ht' => ?_, rfl⟩, ⟨hhtml, rfl⟩, fun h => hat ?_⟩, List.append_nil u, _, rfl⟩
  · rw [List.mem_singleton.mp ht']
    exact hflaw
  · rw [← hrest]
    exact List.mem_append_left _ (List.mem_append_left _ (by rwa [contentOf_cons, contentOf_nil, List.append_nil] at h))

theorem addText_addText (run : MarkupRun) (ts us : List Token) :
    (run.addText ts).addText us = run.addText (ts ++ us) :=
  congrArg (fun pending => ({ run with pending } : MarkupRun)) (List.append_assoc run.pending ts us)

/-- How far the body of a section has been read: its text, and the braces that are open in it. -/
def InSection (r₀ : Reader) (s : MarkupRun × Nat) (r : Reader) : Prop :=
  ∃ ts, s.1 = ({} : MarkupRun).addText ts ∧ Takes r₀ ts r ∧ (contentOf ts).Nests s.2

/-- The body of a section ends before the brace that closes nothing in it, or with the source. -/
def BehindSection (r₀ : Reader) (run : MarkupRun) (r : Reader) : Prop :=
  ∃ ts, run = ({} : MarkupRun).addText ts ∧ Takes r₀ ts r ∧
    (((contentOf ts).Nests 0 ∧ ∃ v, r.tokenizer.rest = '\x7d' :: v) ∨
      (r.tokenizer.rest = [] ∧ ∃ n, (contentOf ts).Nests n))

theorem InSection.add {s : MarkupRun × Nat} (h : InSection r₀ s r) {us : List Token} (hus : Takes r us r') {depth : Nat}
    (hnests : ∀ read, read.Nests s.2 → (read ++ contentOf us).Nests depth) :
    InSection r₀ (s.1.addText us, depth) r' := by
  obtain ⟨ts, hrun, hts, hread⟩ := h
  refine ⟨ts ++ us, ?_, hts.trans hus, by rw [contentOf_append]; exact hnests _ hread⟩
  rw [hrun, addText_addText]

/-- A turn leads on in the body of a section, or to its end. -/
abbrev SectionStep (r₀ r : Reader) : Turn (MarkupRun × Nat) → Reader → Prop :=
  Turn.Steps (InSection r₀) (fun s => BehindSection r₀ s.1) r

section Token

variable {run : MarkupRun} {depth : Nat} {t : Token} (h : InSection r₀ (run, depth) r)
  (hat : '@' ∉ r.tokenizer.rest) (ht : r.tokenizer.peek? = some t)

include h

theorem InSection.markup : InMarkup r := by
  obtain ⟨ts, -, hts, -⟩ := h
  exact hts.markup

include hat ht

/-- A whole token is taken into the body. -/
theorem takeToken_section {depth' : Nat} (hnests : ∀ read : Text, read.Nests depth → (read ++ t.content).Nests depth') :
    Gives (do return Turn.again (run.addText (← bump), depth')) r (SectionStep r₀ r) := by
  rw [gives_bind]
  refine (bump_takes_next h.markup (head?_ne_of_notMem hat) ht).mono ?_
  rintro _ r' ⟨rfl, htakes, hlt, -⟩
  refine ⟨h.add htakes fun read hread => ?_, hlt⟩
  rw [contentOf_cons, contentOf_nil, List.append_nil]
  exact hnests read hread

/-- A token that is not text has no braces to count. -/
theorem takeOther_section (hne : t.kind ≠ .text) :
    Gives (do return Turn.again (run.addText (← bump), depth)) r (SectionStep r₀ r) := by
  have hkind : ¬ t.kind.IsRazor := not_isRazor_of_head h.markup (head?_ne_of_notMem hat) (by rw [ht]; rfl)
  refine takeToken_section h hat ht fun read hread => ?_
  obtain ⟨⟨t, s⟩, hnext, rfl⟩ := Option.map_eq_some_iff.mp ht
  obtain ⟨x, rest, -, -, hcut, hcontent, -⟩ := Tokenizer.next?_of_not_isRazor h.markup.language hnext hkind
  rw [hcontent]
  exact nests_of_kind hread (hcut ▸ hne)

/-- Text is taken up to the brace that closes nothing, if that is in it. -/
theorem takeText_section :
    Gives (match sectionEnd 0 depth t.content with
      | .inr depth => do return Turn.again (run.addText (← bump), depth)
      | .inl 0 => return .done (run, depth)
      | .inl offset => do return .done (run.addText (← bumpPart offset), depth)) r (SectionStep r₀ r) := by
  obtain ⟨ts, hrun, hread, hnests⟩ := id h
  have hends (read : Text) (hread : read.Nests depth) :
      EndsSection read t.content 0 (sectionEnd 0 depth t.content) := sectionEnd_ends hread 0
  split
  · next depth' hend =>
      refine takeToken_section h hat ht fun read hread => ?_
      have hcounted := hends read hread
      rwa [hend] at hcounted
  · next hend =>
      -- the brace is the first character of the token
      have hfirst := hends _ hnests
      rw [hend] at hfirst
      obtain ⟨u, v, hcontent, hu, hnests'⟩ := hfirst
      obtain rfl : u = [] := by
        by_contra hne
        have := Text.size_pos_of_ne_nil hne
        omega
      rw [List.append_nil] at hnests'
      obtain ⟨-, htakes, -⟩ := bump_takes_next h.markup (head?_ne_of_notMem hat) ht
      have hrest := htakes.reads.run.content
      rw [contentOf_cons, hcontent] at hrest
      exact ⟨ts, hrun, hread, Or.inl ⟨hnests', _, hrest⟩⟩
  · next offset hpos hend =>
      have hinside := hends _ hnests
      rw [hend] at hinside
      obtain ⟨u, v, hcontent, rfl, hnests'⟩ := hinside
      have hu : u ≠ [] := by
        rintro rfl
        exact hpos rfl
      rw [gives_bind, Nat.zero_add]
      refine (bumpPart_takes h.markup hat ht hcontent hu).mono ?_
      rintro us r' ⟨hus, rfl, hbrace⟩
      refine ⟨ts ++ us, ?_, hread.trans hus, Or.inl ⟨by rwa [contentOf_append], hbrace⟩⟩
      rw [show run = _ from hrun, addText_addText]

end Token

/-- A turn of markup in a section counts the braces of the text that it takes, and ends before the one that closes
    nothing. -/
theorem markupTurn_section {s : MarkupRun × Nat} (h : InSection r₀ s r) (hat : '@' ∉ r.tokenizer.rest)
    (hangle : '<' ∉ r.tokenizer.rest) : Gives (markupTurn c .section s) r (SectionStep r₀ r) := by
  obtain ⟨run, depth⟩ := s
  unfold markupTurn
  rw [gives_bind]
  refine (switchTo_same h.markup.language).mono ?_
  rintro _ _ rfl
  rw [if_neg (by exact Bool.false_ne_true), gives_bind, gives_peek?]
  split
  · next hnone =>
      obtain ⟨ts, hrun, hread, hnests⟩ := h
      exact ⟨ts, hrun, hread, Or.inr ⟨rest_of_peek_eq_none hnone, depth, hnests⟩⟩
  · next t ht =>
      -- a transition or a tag would begin with a character that is not left
      have hkind : ¬ t.kind.IsRazor := not_isRazor_of_head h.markup (head?_ne_of_notMem hat) (by rw [ht]; rfl)
      split
      · next heq => exact absurd (Or.inl heq) hkind
      · next heq => exact absurd (Or.inr (by rw [heq]; rfl)) hkind
      · next heq =>
          obtain ⟨-, htakes, -, hspelling⟩ := bump_takes_next h.markup (head?_ne_of_notMem hat) ht
          refine absurd ?_ hangle
          rw [htakes.reads.run.content, contentOf_cons, hspelling ['<'] (by rw [heq]; rfl)]
          exact List.mem_cons_self
      · next heq => exact takeOther_section h hat ht (by rw [heq]; decide)
      · next heq =>
          rw [if_pos rfl]
          exact takeText_section h hat ht
      · next hne => exact takeOther_section h hat ht hne

/-- The trees of a run of markup that is text. -/
def textTrees (ts : List Token) : List Tree :=
  if ts.isEmpty then [] else [Tree.overTokens .markupText ts default]

theorem finish_addText (ts : List Token) : (({} : MarkupRun).addText ts).finish = (textTrees ts, []) := by
  cases ts with
  | nil => rfl
  | cons t ts => rfl

theorem tokensAll_textTrees (ts : List Token) : tokensAll (textTrees ts) = ts := by
  cases ts with
  | nil => rfl
  | cons t ts => exact (tokensAll_cons _ []).trans (by rw [tokens_overTokens, tokensAll_nil, List.append_nil])

theorem isPiece_textTrees (ts : List Token) : IsPiece (textTrees ts) .markupText (contentOf ts) := by
  cases ts with
  | nil => exact Or.inl ⟨rfl, rfl⟩
  | cons t ts => exact Or.inr ⟨_, rfl, spells_overTokens rfl _⟩

/-- What is read of a section is text, up to the brace that closes nothing in it or to the end of the source. -/
def ReadsSection (r : Reader) (trees : List Tree) (r' : Reader) : Prop :=
  ∃ ts, trees = textTrees ts ∧ Takes r ts r' ∧
    (((contentOf ts).Nests 0 ∧ ∃ v, r'.tokenizer.rest = '\x7d' :: v) ∨
      (r'.tokenizer.rest = [] ∧ ∃ n, (contentOf ts).Nests n))

theorem markupRun_section (hr : InMarkup r) (hat : '@' ∉ r.tokenizer.rest) (hangle : '<' ∉ r.tokenizer.rest) :
    Gives (markupRun c .section) r (ReadsSection r) := by
  have hstart : InSection r ({}, 0) r := ⟨[], rfl, Takes.refl hr, NestsBy.nil⟩
  unfold markupRun
  rw [gives_bind]
  refine (gives_loop_until (P := fun s => BehindSection r s.1) (fun s r' h => ?_) hstart).mono ?_
  · obtain ⟨ts, -, hts, -⟩ := id h
    have hrest := hts.reads.run.content
    refine markupTurn_section h (fun hmem => hat ?_) fun hmem => hangle ?_
    · exact hrest ▸ List.mem_append_right _ hmem
    · exact hrest ▸ List.mem_append_right _ hmem
  · rintro ⟨run, depth⟩ r' ⟨ts, hrun, hts, hend⟩
    obtain rfl : run = _ := hrun
    dsimp only
    rw [finish_addText]
    exact ⟨ts, rfl, hts, hend⟩

theorem markup_section (fileKind : FileKind) (hr : InMarkup r) (hat : '@' ∉ r.tokenizer.rest)
    (hangle : '<' ∉ r.tokenizer.rest) : Gives (markup fileKind .section) r (ReadsSection r) :=
  gives_markup.mpr (markupRun_section hr hat hangle)

/-! ## The directive around it -/

/-- Tokens without a flaw lie between two readers, and it is noted what is wrong. -/
structure Notes (r : Reader) (ts : List Token) (reports : List Diagnostic) (r' : Reader) : Prop where
  reads : r.Reads ts r'
  flawless : ∀ t ∈ ts, t.flaw = none
  reported : r'.reported = reports ++ r.reported

theorem Quiet.notes {ts : List Token} (h : Quiet r ts r') : Notes r ts [] r' := ⟨h.reads, h.flawless, h.reported⟩

theorem Notes.trans {r'' : Reader} {ts us : List Token} {reports more : List Diagnostic} (h : Notes r ts reports r')
    (h' : Notes r' us more r'') : Notes r (ts ++ us) (more ++ reports) r'' where
  reads := h.reads.trans h'.reads
  flawless := List.forall_mem_append.mpr ⟨h.flawless, h'.flawless⟩
  reported := by rw [h'.reported, h.reported, List.append_assoc]

theorem Quiet.note {ts : List Token} (h : Quiet r ts r') (x : Diagnostic) : Notes r ts [x] (r'.note [x]) where
  reads := h.reads.trans_nil (report_reads x.cause x.span r')
  flawless := h.flawless
  reported := congrArg (x :: ·) h.reported

/-- The name of a section. -/
theorem values_name (d : Directive) (p : DirectiveParts) (hr : ReadsIn .csharp r) {name rest : Text}
    (hname : name.IsName) (hrest : r.tokenizer.rest = ' ' :: (name ++ ' ' :: rest)) :
    Gives (values d [.member] p) r fun p' r' => ∃ label, p'.trees = p.trees ++ [label] ∧ p'.complete = p.complete ∧
      label.Spells .statementCode (' ' :: name) ∧ Quiet r label.tokens r' ∧ ReadsIn .csharp r' ∧
        r'.tokenizer.rest = ' ' :: rest := by
  rw [values, gives_bind]
  refine (takeTrivia_blank hr hrest (hname.isSpace_head _) false).mono ?_
  rintro _ r₁ ⟨blank, rfl, hblank, hquiet, hr₁, hrest₁⟩
  obtain ⟨⟨t, ht, hkind, -⟩, htaken⟩ := bump_name hr₁ hname hrest₁ (by decide)
  rw [gives_bind, gives_here, gives_bind]
  have hsingle : Gives (valueTokens .member) r₁ fun ts r' => ∃ t, ts = [t] ∧ t.content = name ∧ Quiet r₁ [t] r' ∧
      ReadsIn .csharp r' ∧ r'.tokenizer.rest = ' ' :: rest := by
    show Gives (single .identifier) r₁ _
    rw [single, gives_bind, gives_isAt, ht, Option.map_some, hkind, if_pos (by rfl)]
    exact htaken
  refine hsingle.mono ?_
  rintro _ r₂ ⟨word, rfl, hword, hquiet₂, hr₂, hrest₂⟩
  rw [if_neg (by exact Bool.false_ne_true), gives_bind, codePiece, if_neg (by exact Bool.false_ne_true), gives_bind,
    gives_nodeOver, gives_pure, values, gives_pure]
  refine ⟨_, rfl, rfl, spells_overTokens ?_ _, ?_, hr₂, hrest₂⟩
  · rw [contentOf_append, contentOf_cons, contentOf_cons, contentOf_nil, hblank, hword, List.append_nil,
      List.append_nil]
    rfl
  · rw [tokens_overTokens]
    exact hquiet.trans hquiet₂

/-- The brace that opens a section. -/
theorem openBlock_brace (d : Directive) (p : DirectiveParts) (hr : ReadsIn .csharp r) {rest : Text}
    (hrest : r.tokenizer.rest = ' ' :: '\x7b' :: rest) :
    Gives (openBlock d p) r fun p' r' => ∃ opened, p' = p.add [opened] ∧ opened.Spells .metaCode " \x7b".toList ∧
      Quiet r opened.tokens r' ∧ ReadsIn .csharp r' ∧ r'.tokenizer.rest = rest := by
  unfold openBlock
  rw [gives_bind]
  refine (takeTrivia_blank hr hrest ?_ true).mono ?_
  · rintro x ⟨⟩
    decide
  · rintro _ r₁ ⟨blank, rfl, hblank, hquiet, hr₁, hrest₁⟩
    obtain ⟨hkind, htaken⟩ := bump_single hr₁ hrest₁ rfl
    rw [gives_bind, gives_isAt, hkind, if_pos (by rfl), gives_bind]
    refine htaken.mono ?_
    rintro _ r₂ ⟨brace, rfl, hbrace, hquiet₂, hr₂, hrest₂⟩
    rw [gives_bind, gives_nodeOver, gives_pure]
    refine ⟨_, rfl, spells_overTokens ?_ _, ?_, hr₂, hrest₂⟩
    · rw [contentOf_append, contentOf_cons, contentOf_cons, contentOf_nil, hblank, hbrace]
      rfl
    · rw [tokens_overTokens]
      exact hquiet.trans hquiet₂

/-- The brace that closes a section. -/
theorem closeBraceNode_brace (hr : InMarkup r) {rest : Text} (hrest : r.tokenizer.rest = '\x7d' :: rest) :
    Gives closeBraceNode r fun trees r' => ∃ closed, trees = [closed] ∧ closed.Spells .metaCode "\x7d".toList ∧
      Quiet r closed.tokens r' ∧ ReadsIn .csharp r' ∧ r'.tokenizer.rest = rest := by
  unfold closeBraceNode
  rw [gives_bind]
  refine (switchTo_quiet hr.mode).mono ?_
  rintro _ r₁ ⟨hr₁, hswitch⟩
  obtain ⟨hkind, htaken⟩ := bump_single hr₁ (hswitch.reads.rest_eq.trans hrest) rfl
  rw [gives_bind, gives_isAt, hkind, if_pos (by rfl), gives_bind]
  refine htaken.mono ?_
  rintro _ r₂ ⟨brace, rfl, hbrace, hquiet, hr₂, hrest₂⟩
  rw [gives_bind, gives_nodeOver, gives_pure]
  refine ⟨_, rfl, spells_overTokens ?_ _, ?_, hr₂, hrest₂⟩
  · rw [contentOf_cons, contentOf_nil, hbrace]
    rfl
  · rw [tokens_overTokens]
    exact hswitch.trans hquiet

/-- The report of a section whose closing brace is missing at the place of the reader. -/
def unendedSection (r : Reader) : Diagnostic := r.unended Directive.defineSection.name

/-- How a section ends: with its brace and perhaps the end of the line behind it, or with the source. -/
def EndsWith (block : Tree) (behind : List Tree) (reports : List Diagnostic) (r' : Reader) : Prop :=
  (∃ closed, behind = [closed] ∧ closed.Spells .metaCode "\x7d".toList ∧ block.text.Nests 0 ∧ reports = []) ∨
    (behind = [] ∧ (∃ n, block.text.Nests n) ∧ reports = [unendedSection r'] ∧ r'.tokenizer.rest = [])

theorem closeBraceNode_none {language : Language} (hr : ReadsIn language r) (hend : r.tokenizer.rest = []) :
    Gives closeBraceNode r fun trees r' => trees = [] ∧ Quiet r [] r' ∧ ReadsIn .csharp r' := by
  unfold closeBraceNode
  rw [gives_bind]
  refine (switchTo_quiet hr.mode).mono ?_
  rintro _ r₁ ⟨hr₁, hswitch⟩
  rw [gives_bind, gives_isAt, peek?_of_end hr₁ (hswitch.reads.rest_eq.trans hend)]
  exact ⟨rfl, hswitch, hr₁⟩

/-- The block of a section, from the brace that opens it on. -/
theorem markupBlock_section {s : Text}
    (hc : ∀ r, InMarkup r → r.tokenizer.rest = s → Gives (c.markup .section) r (ReadsSection r))
    (p : DirectiveParts) (hp : p.complete = true) (hr : ReadsIn .csharp r)
    (hrest : r.tokenizer.rest = ' ' :: '\x7b' :: s) :
    Gives (markupBlock c .defineSection p) r fun p' r' => ∃ opened block behind reports,
      p'.trees = p.trees ++ opened :: block :: behind ∧ p'.complete = !behind.isEmpty ∧
        opened.Spells .metaCode " \x7b".toList ∧ block.kind? = some .markupBlock ∧
        IsPiece block.children .markupText block.text ∧ EndsWith block behind reports r' ∧
        Notes r (tokensAll (opened :: block :: behind)) reports r' ∧ ReadsIn .csharp r' := by
  unfold markupBlock
  rw [gives_bind]
  refine (openBlock_brace _ p hr hrest).mono ?_
  rintro _ r₁ ⟨opened, rfl, hopened, hquiet₁, hr₁, hrest₁⟩
  rw [if_neg (by rw [show (p.add [opened]).complete = true from hp]; decide), gives_bind, gives_here, gives_bind]
  refine (switchTo_quiet hr₁.mode).mono ?_
  rintro _ r₂ ⟨hr₂, hswitch⟩
  rw [gives_bind]
  refine (hc r₂ hr₂ (hswitch.reads.rest_eq.trans hrest₁)).mono ?_
  rintro _ r₃ ⟨ts, rfl, htakes, hend⟩
  have htext {place : Span} : (Tree.spanning .markupBlock (textTrees ts) place).tokens = ts := by
    rw [tokens_spanning, tokensAll_textTrees]
  generalize hblock : Tree.spanning .markupBlock (textTrees ts) _ = block
  have htokens : block.tokens = ts := hblock ▸ htext
  have hpiece : IsPiece block.children .markupText block.text := by
    rw [Tree.text, htokens, ← hblock]
    exact isPiece_textTrees ts
  have hbody := hquiet₁.trans (hswitch.trans htakes.toQuiet)
  rw [gives_bind]
  -- the markup ends before the brace that closes the section, or with the source
  rcases hend with ⟨hnests, v, hbrace⟩ | ⟨hrest₃, n, hnests⟩
  · refine (closeBraceNode_brace htakes.markup hbrace).mono ?_
    rintro _ r₄ ⟨closed, rfl, hclosed, hquiet₄, hr₄, -⟩
    rw [if_neg (by exact Bool.false_ne_true), gives_pure]
    refine ⟨opened, block, [closed], [], ?_, hp, hopened, hblock ▸ rfl, hpiece, Or.inl ⟨closed, rfl, hclosed, ?_, rfl⟩,
      ?_, hr₄⟩
    · exact List.append_assoc _ _ _
    · rwa [Tree.text, htokens]
    · rw [tokensAll_cons, tokensAll_cons, tokensAll_cons, htokens, tokensAll_nil, List.append_nil, ← List.append_assoc]
      exact (hbody.trans hquiet₄).notes
  · refine (closeBraceNode_none htakes.markup hrest₃).mono ?_
    rintro _ r₄ ⟨rfl, hquiet₄, hr₄⟩
    rw [if_pos (by rfl), gives_bind, gives_here, gives_bind, gives_report, gives_pure]
    refine ⟨opened, block, [], [unendedSection r₄], ?_, rfl, hopened, hblock ▸ rfl, hpiece,
      Or.inr ⟨rfl, ⟨n, ?_⟩, rfl, ?_⟩, ?_, hr₄.language, hr₄.mode⟩
    · exact List.append_assoc _ _ _
    · rwa [Tree.text, htokens]
    · exact hquiet₄.reads.rest_eq.trans hrest₃
    · have hall := hbody.trans hquiet₄
      rw [List.append_nil] at hall
      rw [tokensAll_cons, tokensAll_cons, htokens, tokensAll_nil, List.append_nil]
      exact hall.note _

/-! ## The end of the line -/

theorem lineEnd_node (p : DirectiveParts) {ts : List Token} (hts : Quiet r ts r') (hr' : ReadsIn .csharp r') :
    Gives (do if ts.isEmpty then return p else return p.add [← nodeOver .metaCode ts]) r' fun p' r'' => ∃ behind,
      p'.trees = p.trees ++ behind ∧ IsPiece behind .metaCode (contentOf ts) ∧ Quiet r (tokensAll behind) r'' ∧
        ReadsIn .csharp r'' := by
  cases ts with
  | nil => exact ⟨[], (List.append_nil _).symm, Or.inl ⟨rfl, rfl⟩, hts, hr'⟩
  | cons t ts =>
      rw [if_neg (by exact Bool.false_ne_true), gives_bind, gives_nodeOver, gives_pure]
      refine ⟨_, rfl, Or.inr ⟨_, rfl, spells_overTokens rfl _⟩, ?_, hr'⟩
      rwa [tokensAll_cons, tokens_overTokens, tokensAll_nil, List.append_nil]

/-- The end of a line is a node of its own, if there is nothing else on the line. -/
theorem lineEnd_takes (p : DirectiveParts) (hr : ReadsIn .csharp r) :
    Gives (lineEnd false p) r fun p' r' => ∃ behind, p'.trees = p.trees ++ behind ∧
      IsPiece behind .metaCode (Text.blankLine r.tokenizer.rest) ∧ Quiet r (tokensAll behind) r' ∧
        ReadsIn .csharp r' := by
  unfold lineEnd
  rw [gives_bind]
  refine (switchTo_same hr.language).mono ?_
  rintro _ _ rfl
  unfold lineEndCount?
  -- the white space is counted, and taken only if the line ends behind it
  rw [gives_bind, gives_bind, gives_placeBehind, Nat.zero_add, show skip r.tokenizer 0 = r.tokenizer from rfl]
  have htaken := take_blank hr
  generalize countRun isBlank r.tokenizer = n at htaken ⊢
  rw [gives_bind, gives_kindAt?]
  dsimp only
  rw [if_neg (by exact Bool.false_ne_true), gives_bind, gives_pure, gives_bind, gives_kindAt?,
    show r.tokenizer.peekNth? n = (take n r).2.tokenizer.peek? from (peekNth?_take r n 0).symm]
  obtain ⟨hcontent, hquiet, hr₁, hrest⟩ := id htaken
  have hnext := lineBreak_cases hr₁ (hrest ▸ head?_dropWhile _)
  rw [hrest] at hnext
  rw [Text.blankLine]
  rcases hnext with ⟨hkind, hbreak⟩ | ⟨hkind, htaken'⟩ | ⟨⟨kind, hkind, hne⟩, hbreak⟩
  · rw [hkind, hbreak]
    dsimp only
    rw [gives_pure]
    dsimp only
    rw [gives_bind]
    refine htaken.mono ?_
    rintro ts r' ⟨hcontent, hquiet, hr', -⟩
    rw [← hcontent, List.append_nil]
    exact lineEnd_node p hquiet hr'
  · rw [hkind]
    dsimp only
    rw [gives_pure]
    dsimp only
    rw [gives_bind]
    refine gives_take_succ (htaken'.mono ?_)
    rintro us r' ⟨hbreak, hquiet', hr'⟩
    rw [hbreak]
    dsimp only
    rw [← hcontent, ← contentOf_append]
    exact lineEnd_node p (hquiet.trans hquiet') hr'
  · rw [hkind, hbreak]
    split
    · next heq => exact absurd (Option.some.inj heq) hne
    · exact ⟨[], (List.append_nil _).symm, Or.inl ⟨rfl, rfl⟩, Quiet.refl r, hr⟩
    · next heq => exact nomatch heq

/-! ## The whole directive -/

/-- The directive of a section, with the transition before it: its name, the block over its body, and what follows
    the block. -/
def IsSection (node : Tree) (name : Text) (block : Tree) (behind : List Tree) : Prop :=
  ∃ directive transition body keyword label opened,
    node.kind? = some .codeBlock ∧ node.children = [directive] ∧
    directive.kind? = some .directive ∧ directive.children = [transition, body] ∧
    transition.Spells .codeTransition "@".toList ∧
    body.kind? = some .directiveBody ∧ body.children = keyword :: label :: opened :: block :: behind ∧
    keyword.Spells .metaCode "section".toList ∧ label.Spells .statementCode (' ' :: name) ∧
    opened.Spells .metaCode " \x7b".toList ∧
    block.kind? = some .markupBlock ∧ IsPiece block.children .markupText block.text

/-- How a section ends: with its brace and what is left of the line, or with the source, which is reported. -/
def SectionStops (block : Tree) (behind : List Tree) (reports : List Diagnostic) (r : Reader) : Prop :=
  (∃ closed more v, behind = closed :: more ∧ closed.Spells .metaCode "\x7d".toList ∧ block.text.Nests 0 ∧
    IsPiece more .metaCode (Text.blankLine v) ∧ reports = [] ∧ v = Text.blankLine v ++ r.tokenizer.rest) ∨
  (behind = [] ∧ (∃ n, block.text.Nests n) ∧ reports = [unendedSection r] ∧ r.tokenizer.rest = [])

theorem directiveParts_section {s name : Text} (hname : name.IsName)
    (hc : ∀ r, InMarkup r → r.tokenizer.rest = s → Gives (c.markup .section) r (ReadsSection r))
    (p : DirectiveParts) (hp : p.complete = true) (hr : ReadsIn .csharp r)
    (hrest : r.tokenizer.rest = ' ' :: (name ++ ' ' :: '\x7b' :: s)) :
    Gives (directiveParts c .defineSection p) r fun p' r' => ∃ label opened block behind reports,
      p'.trees = p.trees ++ label :: opened :: block :: behind ∧ label.Spells .statementCode (' ' :: name) ∧
        opened.Spells .metaCode " \x7b".toList ∧ block.kind? = some .markupBlock ∧
        IsPiece block.children .markupText block.text ∧ SectionStops block behind reports r' ∧
        Notes r (tokensAll (label :: opened :: block :: behind)) reports r' ∧ ReadsIn .csharp r' := by
  unfold directiveParts
  rw [if_neg (by decide), show Directive.defineSection.shape = .markupBlock [.member] from rfl]
  dsimp only
  rw [gives_bind]
  refine (values_name _ p hr hname hrest).mono ?_
  rintro p₁ r₁ ⟨label, hp₁, hcomplete, hlabel, hquiet, hr₁, hrest₁⟩
  rw [if_neg (by rw [hcomplete, hp]; decide), gives_bind]
  refine (markupBlock_section hc p₁ (hcomplete.trans hp) hr₁ hrest₁).mono ?_
  rintro p₂ r₂ ⟨opened, block, behind, reports, hp₂, hcomplete₂, hopened, hblock, hpiece, hend, hnotes, hr₂⟩
  rcases hend with ⟨closed, rfl, hclosed, hnests, rfl⟩ | ⟨rfl, hnests, rfl, hrest₂⟩
  · rw [if_pos (by rw [hcomplete₂]; rfl)]
    refine (lineEnd_takes p₂ hr₂).mono ?_
    rintro p₃ r₃ ⟨more, hp₃, hmore, hquiet₃, hr₃⟩
    refine ⟨label, opened, block, closed :: more, [], ?_, hlabel, hopened, hblock, hpiece, ?_, ?_, hr₃⟩
    · rw [hp₃, hp₂, hp₁]
      simp only [List.append_assoc, List.cons_append, List.nil_append]
    · refine Or.inl ⟨closed, more, r₂.tokenizer.rest, rfl, hclosed, hnests, hmore, rfl, ?_⟩
      have hrest₃ := hquiet₃.reads.run.content
      rwa [contentOf_tokensAll, hmore.text_eq] at hrest₃
    · have hall := (hquiet.notes.trans hnotes).trans hquiet₃.notes
      simpa only [tokensAll_cons, tokensAll_nil, List.append_assoc, List.append_nil, List.nil_append] using hall
  · rw [if_neg (by rw [hcomplete₂]; decide), gives_pure]
    refine ⟨label, opened, block, [], [unendedSection r₂], ?_, hlabel, hopened, hblock, hpiece,
      Or.inr ⟨rfl, hnests, rfl, hrest₂⟩, ?_, hr₂⟩
    · rw [hp₂, hp₁]
      simp only [List.append_assoc, List.cons_append, List.nil_append]
    · have hall := hquiet.notes.trans hnotes
      rwa [List.append_nil] at hall

/-- The transition to a section, and the directive behind it. -/
theorem codeTransition_section (hfile : c.fileKind = .legacy) {s name : Text} (hname : name.IsName)
    (hc : ∀ r, InMarkup r → r.tokenizer.rest = s → Gives (c.markup .section) r (ReadsSection r)) (hr : InMarkup r)
    (hrest : r.tokenizer.rest = "@section ".toList ++ (name ++ " \x7b".toList ++ s)) :
    Gives (codeTransition c) r fun node r' => ∃ block behind reports, IsSection node name block behind ∧
      SectionStops block behind reports r' ∧ Notes r node.tokens reports r' ∧ ReadsIn .csharp r' := by
  have hrest₀ : r.tokenizer.rest = '@' :: ("section".toList ++ ' ' :: (name ++ ' ' :: '\x7b' :: s)) := by
    rw [hrest, List.append_assoc]
    rfl
  unfold codeTransition
  rw [gives_bind, gives_here, gives_bind]
  refine (bump_single hr hrest₀ rfl).2.mono ?_
  rintro _ r₁ ⟨mark, rfl, hmark, hquiet, hr₁, hrest₁⟩
  rw [gives_bind, gives_nodeOver, gives_bind]
  refine (switchTo_quiet hr₁.mode).mono ?_
  rintro _ r₂ ⟨hr₂, hswitch⟩
  have hrest₂ := hswitch.reads.rest_eq.trans hrest₁
  have hword : Text.IsName "section".toList := ⟨⟨'s', rfl, by decide⟩, List.all_eq_true.mp (by decide), by decide⟩
  -- the word behind the transition is looked up before it is taken
  obtain ⟨⟨t, ht, hkind, hcontent⟩, htaken⟩ := bump_name hr₂ hword hrest₂ (by decide)
  rw [gives_bind, gives_peek?, ht]
  dsimp only
  rw [hkind]
  dsimp only
  rw [hcontent, hfile, show Directive.ofName? .legacy "section".toList = some .defineSection from rfl]
  dsimp only
  rw [gives_bind]
  unfold directive
  rw [gives_bind]
  refine htaken.mono ?_
  rintro _ r₃ ⟨word, rfl, hword, hquiet₃, hr₃, hrest₃⟩
  rw [gives_bind, gives_nodeOver, gives_bind]
  refine (directiveParts_section hname hc _ rfl hr₃ hrest₃).mono ?_
  rintro p r₄ ⟨label, opened, block, behind, reports, hp, hlabel, hopened, hblock, hpiece, hstops, hnotes, hr₄⟩
  rw [gives_pure, gives_pure]
  refine ⟨block, behind, reports, ?_, hstops, ?_, hr₄⟩
  · refine ⟨_, _, _, _, label, opened, rfl, rfl, rfl, rfl, spells_overTokens ?_ _, rfl, hp, spells_overTokens ?_ _,
      hlabel, hopened, hblock, hpiece⟩
    · rw [contentOf_cons, hmark]
      rfl
    · rw [contentOf_cons, hword]
      rfl
  · have hall := (hquiet.trans (hswitch.trans hquiet₃)).notes.trans hnotes
    rw [tokens_spanning, tokensAll_cons, tokens_spanning, tokensAll_cons, tokensAll_cons, tokens_spanning, hp,
      tokensAll_append, tokensAll_cons, tokensAll_nil, tokens_overTokens, tokens_overTokens]
    simpa only [List.append_nil, List.append_assoc, List.nil_append, List.cons_append] using hall

/-! ## The document around it -/

/-- The text of a section. -/
theorem IsSection.text_eq {node block : Tree} {name : Text} {behind : List Tree}
    (h : IsSection node name block behind) :
    node.text = "@section ".toList ++ (name ++ " \x7b".toList ++ (block.text ++ behind.flatMap text)) := by
  obtain ⟨directive, transition, body, keyword, label, opened, hnode, hchild, hdirective, hparts, htransition, hbody,
    hpieces, hkeyword, hlabel, hopened, -⟩ := h
  rw [text_children hnode, hchild, List.flatMap_singleton, text_children hdirective, hparts, List.flatMap_cons,
    List.flatMap_singleton, text_children hbody, hpieces]
  simp only [List.flatMap_cons, htransition.2, hkeyword.2, hlabel.2, hopened.2, List.append_assoc]
  rfl

/-- What the block of a section and the nodes behind it cover of the source. -/
theorem IsSection.body_eq {node block : Tree} {name s : Text} {behind : List Tree} {reports : List Diagnostic}
    (h : IsSection node name block behind) (hnotes : Notes r node.tokens reports r')
    (hrest : r.tokenizer.rest = "@section ".toList ++ (name ++ " \x7b".toList ++ s)) :
    s = block.text ++ behind.flatMap text ++ r'.tokenizer.rest := by
  have hsplit := hnotes.reads.run.content
  rw [hrest, ← Tree.text, h.text_eq] at hsplit
  simp only [List.append_assoc] at hsplit ⊢
  exact List.append_cancel_left (List.append_cancel_left (List.append_cancel_left hsplit))

/-- The node of a section has been read, and it is noted how the section ends. -/
def ReadsSectionNode (name : Text) (r : Reader) (node : Tree) (r' : Reader) : Prop :=
  ∃ block behind reports, IsSection node name block behind ∧ SectionStops block behind reports r' ∧
    Notes r node.tokens reports r' ∧ ReadsIn .csharp r'

/-- What starts with a step that changes nothing the second time may start behind it. -/
theorem bind_of_same {α : Type} {x : Grammar Unit} {k : Unit → Grammar α} (h : x (x r).2 = x r) :
    (x >>= k) (x r).2 = (x >>= k) r :=
  congrArg (fun step : Unit × Reader => k step.1 step.2) h

/-- A run of markup reads on in the same way whatever the language before it. -/
theorem gives_loop_switchTo (hmode : r.tokenizer.mode = .data) {scope : MarkupScope} {s : MarkupRun × Nat}
    {P : MarkupRun × Nat → Reader → Prop} (h : Gives (loop (markupTurn c scope) s) (switchTo .html r).2 P) :
    Gives (loop (markupTurn c scope) s) r P := by
  obtain ⟨hr, hquiet⟩ : Gives (switchTo .html) r fun _ r' => InMarkup r' ∧ Quiet r [] r' := switchTo_quiet hmode
  have hturn : markupTurn c scope s (switchTo .html r).2 = markupTurn c scope s r := by
    obtain ⟨run, depth⟩ := s
    unfold markupTurn
    exact bind_of_same (Prod.ext rfl (switchTo_same hr.language).symm)
  have hleft : (switchTo .html r).2.left = r.left := by
    rw [hr.left, Reader.left, Tokenizer.left, if_neg (by rw [hmode]; decide), Nat.add_zero]
    exact congrArg (2 * List.length ·) hquiet.reads.rest_eq
  unfold Gives at h ⊢
  rwa [loop, hturn, hleft, ← loop] at h

/-- Text behind a section goes up to the end of the source. -/
theorem markupLoop_behind {node : Tree} (hr : ReadsIn .csharp r) (hat : '@' ∉ r.tokenizer.rest)
    (hangle : '<' ∉ r.tokenizer.rest) :
    Gives (loop (markupTurn c .document) (({} : MarkupRun).push node, 0)) r fun s r' => ∃ ts,
      s = ((({} : MarkupRun).push node).addText ts, 0) ∧ Quiet r ts r' ∧ r'.tokenizer.rest = [] ∧
        (r.tokenizer.rest = [] → ts = []) := by
  obtain ⟨hr₁, hquiet⟩ : Gives (switchTo .html) r fun _ r' => InMarkup r' ∧ Quiet r [] r' := switchTo_quiet hr.mode
  have hrest := hquiet.reads.rest_eq
  refine gives_loop_switchTo hr.mode ?_
  by_cases hend : r.tokenizer.rest = []
  · refine gives_loop_done ?_
    unfold markupTurn
    rw [gives_bind]
    refine (switchTo_same hr₁.language).mono ?_
    rintro _ _ rfl
    rw [if_neg (by exact Bool.false_ne_true), gives_bind, gives_peek?, peek?_of_end hr₁ (hrest.trans hend)]
    exact ⟨_, rfl, [], rfl, hquiet, hrest.trans hend, fun _ => rfl⟩
  · refine (markupLoop_text (Or.inl rfl) hr₁ (hrest ▸ hat) (hrest ▸ hangle)).mono ?_
    rintro _ r' ⟨ts, rfl, htakes, hall⟩
    exact ⟨ts, rfl, hquiet.trans htakes.toQuiet, hall, fun hnone => absurd hnone hend⟩

/-- A section and the text behind it, up to the end of the source. -/
def ReadsSectionFirst (name : Text) (r : Reader) (trees : List Tree) (r' : Reader) : Prop :=
  ∃ node ts r₁, trees = node :: textTrees ts ∧ ReadsSectionNode name r node r₁ ∧ Quiet r₁ ts r' ∧
    r'.tokenizer.rest = [] ∧ (r₁.tokenizer.rest = [] → ts = [])

theorem finish_push (node : Tree) (ts : List Token) :
    ((({} : MarkupRun).push node).addText ts).finish = (node :: textTrees ts, []) := by
  cases ts with
  | nil => rfl
  | cons t ts => rfl

/-- The run of markup of a document that starts with a section. -/
theorem markupRun_document (hfile : c.fileKind = .legacy) {s name : Text} (hname : name.IsName)
    (hc : ∀ r, InMarkup r → r.tokenizer.rest = s → Gives (c.markup .section) r (ReadsSection r)) (hr : InMarkup r)
    (hbefore : r.before = none) (hrest : r.tokenizer.rest = "@section ".toList ++ (name ++ " \x7b".toList ++ s))
    (hat : '@' ∉ s) (hangle : '<' ∉ s) :
    Gives (markupRun c .document) r (ReadsSectionFirst name r) := by
  have hfirst := markupTurn_start (x := 's') rfl (show TokenKind.text ≠ .transition by decide) hr hbefore hrest
    (codeTransition_section hfile hname hc hr hrest)
  unfold markupRun
  rw [gives_bind]
  have hloop : Gives (loop (markupTurn c .document) ({}, 0)) r fun s r' => ∃ node ts r₁,
      s = ((({} : MarkupRun).push node).addText ts, 0) ∧ ReadsSectionNode name r node r₁ ∧ Quiet r₁ ts r' ∧
        r'.tokenizer.rest = [] ∧ (r₁.tokenizer.rest = [] → ts = []) := by
    refine gives_loop_again (hfirst.mono ?_)
    rintro _ r₁ ⟨node, rfl, hnode⟩
    obtain ⟨block, behind, reports, hsection, hstops, hnotes, hr₁⟩ := id hnode
    have hsuffix : r₁.tokenizer.rest <:+ s := ⟨_, (hsection.body_eq hnotes hrest).symm⟩
    refine ⟨_, rfl, ?_, ?_⟩
    · have hlength := hsuffix.length_le
      rw [hr₁.left, hr.left, hrest, List.length_append, List.length_append, show "@section ".toList.length = 9 from rfl]
      omega
    · refine (markupLoop_behind hr₁ (fun h => hat (hsuffix.subset h)) fun h => hangle (hsuffix.subset h)).mono ?_
      rintro s' r' ⟨ts, rfl, hquiet, hend, hnone⟩
      exact ⟨node, ts, r₁, rfl, hnode, hquiet, hend, hnone⟩
  refine hloop.mono ?_
  rintro _ r' ⟨node, ts, r₁, rfl, hnode, hquiet, hend, hnone⟩
  dsimp only
  rw [finish_push]
  exact ⟨node, ts, r₁, rfl, hnode, hquiet, hend, hnone⟩

theorem markup_document {s name : Text} (hname : name.IsName) (hr : InMarkup r) (hbefore : r.before = none)
    (hrest : r.tokenizer.rest = "@section ".toList ++ (name ++ " \x7b".toList ++ s)) (hat : '@' ∉ s)
    (hangle : '<' ∉ s) : Gives (markup .legacy .document) r (ReadsSectionFirst name r) := by
  refine gives_markup.mpr (markupRun_document rfl hname (fun r' hr' hrest' => ?_) hr hbefore hrest hat hangle)
  -- the surroundings of code read markup only where less is left, as there is behind the brace
  have hlt : r'.left < r.left := by
    rw [hr'.left, hr.left, hrest', hrest, List.length_append, List.length_append,
      show "@section ".toList.length = 9 from rfl]
    omega
  exact (gives_around_of_lt hlt).mpr (markup_section .legacy hr' (hrest' ▸ hat) (hrest' ▸ hangle))

end Grammar

namespace ParsedDocument

/-- What is noted of a document whose tokens have no flaws is all that is wrong with it. -/
theorem diagnostics_of_notes {kind : FileKind} {d : Source} {ts : List Token} {reports : List Diagnostic}
    (h : Notes (readerOf d) ts reports (markup kind .document (readerOf d)).2)
    (htokens : (parse kind d).root.tokens = ts) :
    (parse kind d).diagnostics = Diagnostic.dropRepeats (reports.reverse.mergeSort Diagnostic.spanLe) := by
  have hflaws : (parse kind d).root.tokens.flatMap Token.diagnostics = [] :=
    List.flatMap_eq_nil_iff.mpr fun t ht => by rw [Token.diagnostics, h.flawless t (htokens ▸ ht)]; rfl
  show arrange _ (parse kind d).root = _
  rw [arrange, hflaws, List.append_nil, h.reported, show (readerOf d).reported = [] from rfl, List.append_nil]

/-- In a section whose text has neither tags nor transitions, the first brace that closes nothing ends the body: the
    block covers the text before it, and the text behind it is markup, but for what ends the line of the brace. If
    there is no such brace, the body goes up to the end of the source, and the brace is reported to be missing. -/
theorem section_body {d : Source} {name s : Text} (hname : name.IsName) (hangle : '<' ∉ s) (hat : '@' ∉ s)
    (hd : d.text = "@section ".toList ++ name ++ " \x7b".toList ++ s) :
    ∃ markup node block tail, (parse .legacy d).root.children = [markup] ∧ markup.kind? = some .markupBlock ∧
      markup.children = node :: tail ∧
      (∀ u v, s = u ++ '\x7d' :: v → u.Nests 0 → ∃ brace lineEnd rest,
        IsSection node name block (brace :: lineEnd) ∧ block.text = u ∧ brace.Spells .metaCode "\x7d".toList ∧
          v = Text.blankLine v ++ rest ∧ IsPiece lineEnd .metaCode (Text.blankLine v) ∧
          IsPiece tail .markupText rest ∧ (parse .legacy d).diagnostics = []) ∧
      ((∀ u v, s = u ++ '\x7d' :: v → ¬ u.Nests 0) → IsSection node name block [] ∧ block.text = s ∧ tail = [] ∧
        (parse .legacy d).diagnostics =
          [⟨.missingClose "section" '\x7b' '\x7d', Span.empty d.path (Location.start.advance d.text)⟩]) := by
  have hrest : d.text = "@section ".toList ++ (name ++ " \x7b".toList ++ s) := by
    rw [hd, List.append_assoc, List.append_assoc, List.append_assoc]
  obtain ⟨node, ts, r₁, htrees, ⟨block, behind, reports, hsection, hstops, hnotes, -⟩, hquiet, hend, hnone⟩ :=
    markup_document hname (r := readerOf d) ⟨rfl, rfl⟩ rfl hrest hat hangle
  have hbody := hsection.body_eq hnotes hrest
  have hall : Notes (readerOf d) (node.tokens ++ ts) reports _ := hnotes.trans hquiet.notes
  have htokens : (parse .legacy d).root.tokens = node.tokens ++ ts := by
    show (Tree.spanning .document [Tree.spanning .markupBlock _ _] _).tokens = _
    rw [tokens_spanning, tokensAll_cons, tokens_spanning, tokensAll_nil, List.append_nil, htrees, tokensAll_cons,
      tokensAll_textTrees]
  have hdiagnostics := diagnostics_of_notes hall htokens
  refine ⟨_, node, block, textTrees ts, rfl, rfl, htrees, ?_⟩
  rcases hstops with ⟨brace, lineEnd, v, rfl, hbrace, hnests, hline, rfl, hv⟩ | ⟨rfl, ⟨n, hnests⟩, rfl, hrest₁⟩
  · have hs : s = block.text ++ '\x7d' :: v := by
      rw [hbody, List.flatMap_cons, hbrace.2, hline.text_eq, List.append_assoc, List.append_assoc, ← hv]
      rfl
    refine ⟨fun u v' hu hnests' => ?_, fun hno => absurd hnests (hno _ _ hs)⟩
    -- the text is parted by the first brace that closes nothing, and there is only one such brace
    obtain rfl : block.text = u := hnests.eq_of_append hnests' (by decide) rfl rfl (hs.symm.trans hu)
    obtain rfl : v = v' := (List.cons.inj (List.append_cancel_left (hs.symm.trans hu))).2
    refine ⟨brace, lineEnd, contentOf ts, hsection, rfl, hbrace, ?_, hline, isPiece_textTrees ts, ?_⟩
    · have hbehind := hquiet.reads.run.content
      rw [hend, List.append_nil] at hbehind
      rwa [hbehind] at hv
    · rw [hdiagnostics, List.reverse_nil, List.mergeSort_nil]
      rfl
  · have hs : s = block.text := by
      rw [hbody, hrest₁, List.flatMap_nil, List.append_nil, List.append_nil]
    refine ⟨fun u v hu hnests' => ?_, fun _ => ⟨hsection, hs.symm, ?_, ?_⟩⟩
    · refine absurd ⟨v, ?_⟩ (hnests'.not_prefix (x := '\x7d') (by decide) rfl hnests)
      rw [← hs, hu, List.append_assoc]
      rfl
    · rw [hnone hrest₁]
      rfl
    · have hrun := hnotes.reads.run
      rw [hrest₁] at hrun
      have hwhole : contentOf node.tokens = d.text := hrun.contentOf_eq
      rw [hdiagnostics, List.reverse_singleton, List.mergeSort_singleton, unendedSection, Reader.unended,
        hnotes.reads.path, hrun.place, hwhole]
      rfl

/-- A section whose body has a pair of braces of its own, and a line that ends with the section. -/
theorem section_body_nested :
    Text.IsName "A".toList ∧ '<' ∉ "\x7b\x7d\x7d\nc".toList ∧ '@' ∉ "\x7b\x7d\x7d\nc".toList ∧
      Text.Nests "\x7b\x7d".toList 0 ∧ ∃ node block brace lineEnd tail,
        IsSection node "A".toList block [brace, lineEnd] ∧ block.text = "\x7b\x7d".toList ∧
          brace.Spells .metaCode "\x7d".toList ∧ lineEnd.Spells .metaCode "\n".toList ∧
          IsPiece tail .markupText "c".toList ∧
          (parse .legacy (.anonymous "@section A \x7b\x7b\x7d\x7d\nc")).diagnostics = [] := by
  have hname : Text.IsName "A".toList := ⟨⟨'A', rfl, by decide⟩, List.all_eq_true.mp (by decide), by decide⟩
  have hangle : '<' ∉ "\x7b\x7d\x7d\nc".toList := by decide
  have hat : '@' ∉ "\x7b\x7d\x7d\nc".toList := by decide
  have hnests : Text.Nests "\x7b\x7d".toList 0 := (NestsBy.nil.opens (by decide) rfl).closes (by decide) rfl
  refine ⟨hname, hangle, hat, hnests, ?_⟩
  obtain ⟨-, node, block, tail, -, -, -, hclosed, -⟩ := section_body
    (d := .anonymous "@section A \x7b\x7b\x7d\x7d\nc") hname hangle hat rfl
  obtain ⟨brace, lineEnd, rest, hsection, hblock, hbrace, hrest, hline, htail, hdiagnostics⟩ :=
    hclosed "\x7b\x7d".toList "\nc".toList rfl hnests
  obtain rfl : "c".toList = rest := List.append_cancel_left (show "\n".toList ++ _ = "\n".toList ++ _ from hrest)
  rcases hline with ⟨-, hnone⟩ | ⟨t, rfl, ht⟩
  · exact absurd hnone (by decide)
  · exact ⟨node, block, brace, t, tail, hsection, hblock, hbrace, ht, htail, hdiagnostics⟩

end ParsedDocument

end RazorLang
