import RazorLang.Proofs.Grammar.PlainMarkup
import RazorLang.Proofs.Tree.Nodes
import RazorLang.Tree.Document

/-!
# Comments and doctypes in code

A comment or a doctype at the start of a statement is read as markup, but only a whole element ends a run of
markup in code (`markupTurn_text`). So everything behind it is text of markup, to the end of the document,
and the brace that should close the block is reported to be missing (`ParsedDocument.parse_markup_in_block`).
-/

namespace RazorLang

open RazorLang.Tree RazorLang.Grammar Reader

/-! ## Comments and doctypes -/

/-- A comment of markup: behind its opening, it ends where `-->` stands for the first time. -/
def Text.IsHtmlComment (m : Text) : Prop :=
  ∃ body : Text, m = "<!--".toList ++ body ++ "-->".toList ∧ ¬ "-->".toList <:+: body ++ "--".toList

/-- A doctype: the word in any case, and anything up to the first `>`. -/
def Text.IsDoctype (m : Text) : Prop :=
  ∃ word body : Text, m = "<!".toList ++ word ++ body ++ ">".toList ∧
    Text.sameIgnoringCase word "doctype".toList = true ∧ '>' ∉ body

namespace Text

variable {t u v w : Text}

/-- What goes on up to a terminator goes on to the end of a text in which that stands at the end alone. -/
theorem suffix_of_terminated (h : u ++ w = t ++ v) {terminator : Text} (hu : w = [] ∨ terminator <:+ u)
    (hfirst : ¬ terminator <:+: t.dropLast) : w <:+ v := by
  rcases hu with rfl | hu
  · exact List.nil_suffix
  rcases List.append_eq_append_iff.mp h with ⟨c, rfl, rfl⟩ | ⟨c, rfl, rfl⟩
  · cases hc : c with
    | nil => exact List.suffix_refl v
    | cons x c' =>
        -- what was read ends before the last character of `t`, and so does its terminator
        refine absurd ?_ hfirst
        rw [List.dropLast_append_of_ne_nil (by rw [hc]; exact List.cons_ne_nil x c')]
        exact hu.isInfix.trans (List.prefix_append u _).isInfix
  · exact List.suffix_append c w

/-- The first `>` of a doctype is its end. -/
theorem IsDoctype.notMem_dropLast (h : t.IsDoctype) : '>' ∉ t.dropLast := by
  obtain ⟨word, body, rfl, hword, hbody⟩ := h
  rw [show ">".toList = ['>'] from rfl, List.dropLast_concat]
  have hnone : '>' ∉ word := by
    intro hmem
    have hlower : Char.toLower '>' ∈ toLower word := List.mem_map_of_mem hmem
    rw [beq_iff_eq.mp hword] at hlower
    exact absurd hlower (by decide)
  rw [List.append_assoc, List.mem_append, List.mem_append]
  rintro (h | h | h)
  · exact absurd h (by decide)
  · exact hnone h
  · exact hbody h

theorem eq_of_toLower_eq_d {x : Char} (h : x.toLower = 'd') : x = 'd' ∨ x = 'D' := by
  unfold Char.toLower at h
  split at h
  · have hval : x.val + ('a'.val - 'A'.val) = 'D'.val + ('a'.val - 'A'.val) := congrArg Char.val h
    exact Or.inr (Char.ext ((UInt32.add_left_inj _).mp hval))
  · exact Or.inl h

theorem IsDoctype.eq_cons (h : t.IsDoctype) : ∃ x u, t = '<' :: '!' :: x :: u ∧ (x = 'd' ∨ x = 'D') := by
  obtain ⟨word, body, rfl, hword, -⟩ := h
  cases word with
  | nil => exact absurd hword (by decide)
  | cons x word => exact ⟨x, _, rfl, eq_of_toLower_eq_d (List.cons.inj (beq_iff_eq.mp hword)).1⟩

/-- A comment or a doctype starts with `<!` and no operator behind it. -/
theorem eq_cons_of_markup (h : t.IsHtmlComment ∨ t.IsDoctype) :
    ∃ x u, t = '<' :: '!' :: x :: u ∧ x ∈ ['-', 'd', 'D'] := by
  rcases h with ⟨body, rfl, -⟩ | h
  · exact ⟨'-', _, rfl, List.mem_cons_self⟩
  · obtain ⟨x, u, rfl, hx⟩ := h.eq_cons
    refine ⟨x, u, rfl, List.mem_cons_of_mem _ ?_⟩
    rcases hx with rfl | rfl
    · exact List.mem_cons_self
    · exact List.mem_cons_of_mem _ (List.mem_singleton_self _)

end Text

namespace Grammar

variable {r : Reader} {c : Surroundings}

theorem head?_ne_of_notMem {t : Text} {x : Char} (h : x ∉ t) : t.head? ≠ some x :=
  fun hx => h (List.mem_of_mem_head? hx)

/-- Nothing is left to read, or a terminator has been read last. -/
def EndsBehind (terminator u : Text) (r : Reader) : Prop :=
  r.tokenizer.rest = [] ∨ terminator <:+ u

/-- A repetition that collects tokens up to a terminator. -/
theorem takes_loop_behind {turn : List Token → Grammar (Turn (List Token))} (terminator : Text)
    (hturn : ∀ ts r, InMarkup r → '@' ∉ r.tokenizer.rest →
      Gives (turn ts) r (TurnTakes (· ++ ·) (EndsBehind terminator) r ts))
    (ts : List Token) (hr : InMarkup r) (hat : '@' ∉ r.tokenizer.rest) :
    Gives (loop turn ts) r fun us r' =>
      ∃ vs, us = ts ++ vs ∧ Takes r vs r' ∧ EndsBehind terminator (contentOf vs) r' := by
  refine takes_loop (· ++ ·) (I := fun _ => True) (P := ('@' ∉ ·)) (fun _ _ _ => List.append_assoc _ _ _)
    (fun _ _ _ => trivial) (fun u v h hv => h (List.mem_append_right u hv)) (fun u v r h => ?_)
    (fun ts r _ => hturn ts r) trivial hr hat
  exact h.imp_right fun hv => hv.trans (List.suffix_append u v)

/-- A comment is taken up to its end. -/
theorem htmlComment_takes (hr : InMarkup r) {t : Text} (hrest : r.tokenizer.rest = "<!--".toList ++ t)
    (hat : '@' ∉ t) : Gives htmlComment r fun ts r' => Takes r ts r' ∧
      ∃ u, contentOf ts = "<!--".toList ++ u ∧ EndsBehind "-->".toList u r' := by
  -- its opening are three tokens
  have hr₀ : r.tokenizer.rest = '<' :: '!' :: '-' :: '-' :: t := hrest
  obtain ⟨h₁, hc₁, hr₁⟩ := bump_takes_cut hr hr₀ (by decide)
  replace hr₁ : (bump r).2.tokenizer.rest = '!' :: '-' :: '-' :: t := hr₁
  obtain ⟨h₂, hc₂, hr₂⟩ := bump_takes_cut h₁.markup hr₁ (by decide)
  replace hr₂ : (bump (bump r).2).2.tokenizer.rest = '-' :: '-' :: t := hr₂
  obtain ⟨h₃, hc₃, hr₃⟩ := bump_takes_cut h₂.markup hr₂ (by decide)
  have hlead : Gives (take 3) r fun ts r' => Takes r ts r' ∧ contentOf ts = "<!--".toList ∧
      r'.tokenizer.rest = t := by
    have htake : take 3 r = ((bump r).1 ++ ((bump (bump r).2).1 ++ ((bump (bump (bump r).2).2).1 ++ [])),
      (bump (bump (bump r).2).2).2) := rfl
    unfold Gives
    rw [htake, List.append_nil]
    refine ⟨h₁.trans (h₂.trans h₃), ?_, hr₃⟩
    rw [contentOf_append, contentOf_append, hc₁, hc₂, hc₃]
    rfl
  unfold htmlComment
  rw [gives_bind]
  refine hlead.mono ?_
  rintro lead r₁ ⟨hlead, hopening, hbody⟩
  refine (takes_loop_behind "-->".toList ?_ lead hlead.markup (hbody ▸ hat)).mono ?_
  · intro ts r hr hat
    rw [gives_bind]
    refine (bump_takes_token hr (head?_ne_of_notMem hat)).mono ?_
    rintro taken r₂ (⟨rfl, rfl, hend⟩ | ⟨t, rfl, htakes, hlt, -, hspelling⟩)
    · exact ⟨[], (List.append_nil ts).symm, Takes.refl hr, Or.inl hend⟩
    · dsimp only
      rw [gives_bind, gives_isAt]
      split
      · next hclosing =>
          obtain ⟨hhyphens, hangle⟩ := Bool.and_eq_true_iff.mp hclosing
          rw [gives_bind]
          have hat₂ : '@' ∉ r₂.tokenizer.rest := fun h =>
            hat (htakes.reads.run.content ▸ List.mem_append_right _ h)
          refine (bump_takes_token htakes.markup (head?_ne_of_notMem hat₂)).mono ?_
          rintro closing r₃ (⟨rfl, rfl, hend⟩ | ⟨u, rfl, hlast, -, hpeek, hspelling'⟩)
          · exact ⟨[t], by rw [List.append_nil]; rfl, htakes, Or.inl hend⟩
          · refine ⟨[t] ++ [u], List.append_assoc _ _ _, htakes.trans hlast, Or.inr ?_⟩
            rw [hpeek] at hangle
            have hkind : u.kind = .closeAngle := Option.some.inj (beq_iff_eq.mp hangle)
            have ht := hspelling ['-', '-'] (by rw [beq_iff_eq.mp hhyphens]; rfl)
            have hu := hspelling' ['>'] (by rw [hkind]; rfl)
            rw [contentOf_append, contentOf_cons, contentOf_cons, contentOf_nil, ht, hu]
            exact List.suffix_refl _
      · exact ⟨[t], rfl, htakes, hlt⟩
  · rintro ts r₂ ⟨us, rfl, htakes, hend⟩
    refine ⟨hlead.trans htakes, contentOf us, ?_, hend⟩
    rw [contentOf_append, hopening]

/-- A declaration is taken up to its end. -/
theorem declaration_takes (hr : InMarkup r) (hat : '@' ∉ r.tokenizer.rest) :
    Gives declaration r fun ts r' => Takes r ts r' ∧ EndsBehind ">".toList (contentOf ts) r' := by
  unfold declaration
  refine (takes_loop_behind ">".toList ?_ [] hr hat).mono ?_
  · intro ts r hr hat
    rw [gives_bind]
    refine (bump_takes_token hr (head?_ne_of_notMem hat)).mono ?_
    rintro taken r₂ (⟨rfl, rfl, hend⟩ | ⟨t, rfl, htakes, hlt, -, hspelling⟩)
    · exact ⟨[], (List.append_nil ts).symm, Takes.refl hr, Or.inl hend⟩
    · dsimp only
      split
      · next hclosing =>
          refine ⟨[t], rfl, htakes, Or.inr ?_⟩
          rw [contentOf_cons, contentOf_nil, hspelling ['>'] (by rw [beq_iff_eq.mp hclosing]; rfl)]
          exact List.suffix_refl _
      · exact ⟨[t], rfl, htakes, hlt⟩
  · rintro ts r₂ ⟨us, rfl, htakes, hend⟩
    exact ⟨htakes, hend⟩

/-- Behind `<!` stands a comment if `--` comes next, and a declaration if not. -/
theorem tag_takes_bang (hr : InMarkup r) {x : Char} {t : Text} (hrest : r.tokenizer.rest = '<' :: '!' :: x :: t)
    {P : Tag → Reader → Prop} (textTag : Bool)
    (hcomment : (Html.cut x t).kind = .doubleHyphen → Gives (do return .text (← htmlComment)) r P)
    (hdeclaration : (Html.cut x t).kind ≠ .doubleHyphen → Gives (do return .text (← declaration)) r P) :
    Gives (tag c textTag) r P := by
  obtain ⟨htakes, -, hbehind⟩ := bump_takes_cut hr hrest (by decide)
  replace hbehind : (bump r).2.tokenizer.rest = '!' :: x :: t := hbehind
  have hkind := kindAt_behind htakes.markup hbehind (by decide) rfl
  rw [peekNth?_bump] at hkind
  obtain ⟨u, hu, hbang⟩ := Option.map_eq_some_iff.mp (kindAt_behind hr hrest (by decide) rfl)
  unfold tag
  rw [gives_bind, gives_peekNth?, hu]
  dsimp only
  rw [show u.kind = .bang from hbang]
  dsimp only
  rw [gives_bind, gives_kindAt?, hkind]
  split
  · next heq => exact hcomment (Option.some.inj (beq_iff_eq.mp heq))
  · next hne => exact hdeclaration fun heq => hne (beq_iff_eq.mpr (congrArg some heq))

/-- A comment or a doctype is text, and what is left behind it comes behind it in the source. -/
theorem tag_takes {m v : Text} (hm : m.IsHtmlComment ∨ m.IsDoctype) (hr : InMarkup r)
    (hrest : r.tokenizer.rest = m ++ v) (hat : '@' ∉ m ++ v) (textTag : Bool) :
    Gives (tag c textTag) r fun t r' => ∃ ts, t = .text ts ∧ Takes r ts r' ∧ r'.tokenizer.rest <:+ v := by
  rcases hm with ⟨body, rfl, hfirst⟩ | hm
  · have hlead : r.tokenizer.rest = "<!--".toList ++ (body ++ "-->".toList ++ v) := by
      rw [hrest, List.append_assoc, List.append_assoc, List.append_assoc]
    refine tag_takes_bang hr (x := '-') (t := '-' :: (body ++ "-->".toList ++ v)) hlead textTag (fun _ => ?_)
      fun hne => absurd rfl hne
    rw [gives_bind]
    refine (htmlComment_takes hr hlead ?_).mono ?_
    · intro h
      rw [← hrest, hlead] at hat
      exact hat (List.mem_append_right _ h)
    · rintro ts r' ⟨htakes, u, hcontent, hend⟩
      refine ⟨ts, rfl, htakes, Text.suffix_of_terminated (t := body ++ "-->".toList) ?_ hend ?_⟩
      · have hcut : "<!--".toList ++ (u ++ r'.tokenizer.rest) = "<!--".toList ++ (body ++ "-->".toList ++ v) := by
          rw [← hlead, htakes.reads.run.content, hcontent, List.append_assoc]
        exact List.append_cancel_left hcut
      · rw [List.dropLast_append_of_ne_nil (by decide)]
        exact hfirst
  · obtain ⟨x, t, hlead, hx⟩ := hm.eq_cons
    have hcons : r.tokenizer.rest = '<' :: '!' :: x :: (t ++ v) := by rw [hrest, hlead]; rfl
    refine tag_takes_bang hr hcons textTag (fun heq => ?_) fun _ => ?_
    · rcases hx with rfl | rfl
      · exact nomatch heq
      · exact nomatch heq
    · rw [gives_bind]
      refine (declaration_takes hr (hrest ▸ hat)).mono ?_
      rintro ts r' ⟨htakes, hend⟩
      have hcut := htakes.reads.run.content
      rw [hrest] at hcut
      refine ⟨ts, rfl, htakes, Text.suffix_of_terminated hcut.symm hend fun hearlier => ?_⟩
      exact hm.notMem_dropLast (hearlier.subset (List.mem_singleton_self '>'))

/-- Adds text to a run of markup. -/
def addText (s : MarkupRun × Nat) (ts : List Token) : MarkupRun × Nat := (s.1.addText ts, s.2)

/-- A run of markup ends with the source. -/
def AtEnd (_ : Text) (r : Reader) : Prop := r.tokenizer.rest = []

/-- Text ends no run of markup of a document, and none in code in which no element is complete. -/
def GoesOn (scope : MarkupScope) (run : MarkupRun) : Prop :=
  scope = .document ∨ scope = .element ∧ run.complete = false

/-- A turn of markup takes text as it is. -/
theorem markupTurn_text {scope : MarkupScope} {s : MarkupRun × Nat} (hs : GoesOn scope s.1) (hr : InMarkup r)
    (hat : '@' ∉ r.tokenizer.rest) (hangle : '<' ∉ r.tokenizer.rest) :
    Gives (markupTurn c scope s) r (TurnTakes addText AtEnd r s) := by
  obtain ⟨run, depth⟩ := s
  have hscope : scope ≠ .line ∧ scope ≠ .section := by
    rcases hs with rfl | ⟨rfl, -⟩
    · decide
    · decide
  refine gives_markupTurn ((switchTo_same hr.language).mono ?_)
  rintro _ _ rfl g hmove
  -- the next token starts no transition, comment or tag
  have hplain {kind : TokenKind} (hkind : r.tokenizer.peek?.map (·.kind) = some kind) : ¬ kind.IsRazor :=
    not_isRazor_of_head hr (head?_ne_of_notMem hat) hkind
  cases hmove with
  | complete hscope hcomplete =>
      rcases hs with rfl | ⟨-, hnot⟩
      · exact nomatch hscope
      · exact nomatch (show run.complete = false from hnot).symm.trans hcomplete
  | stop hend =>
      refine ⟨[], ?_, Takes.refl hr, rest_of_peek_eq_none (hend.resolve_right hscope.2)⟩
      exact congrArg (fun pending => ({ run with pending }, depth)) (List.append_nil run.pending).symm
  | @text t n ht _ hdepth =>
      obtain ⟨hts, htakes, hlt, -⟩ := bump_takes_next hr (head?_ne_of_notMem hat) ht
      rw [hdepth hscope.2]
      exact ⟨[t], congrArg (fun ts => (run.addText ts, depth)) hts, htakes, hlt⟩
  | lineEnd hline => exact absurd hline hscope.1
  | part _ hsection => exact absurd hsection hscope.2
  | transition hkind => exact absurd (Or.inl rfl) (hplain hkind)
  | comment hkind => exact absurd (Or.inr rfl) (hplain hkind)
  | tag hkind =>
      obtain ⟨t, ht, heq⟩ := Option.map_eq_some_iff.mp hkind
      obtain ⟨-, htakes, -, hspelling⟩ := bump_takes_next hr (head?_ne_of_notMem hat) ht
      refine absurd ?_ hangle
      rw [htakes.reads.run.content, contentOf_cons, hspelling ['<'] (by rw [heq]; rfl)]
      exact List.mem_cons_self

/-- The first turn takes a comment or a doctype. -/
theorem markupTurn_tag {m v : Text} (hm : m.IsHtmlComment ∨ m.IsDoctype) (hr : InMarkup r)
    (hrest : r.tokenizer.rest = m ++ v) (hat : '@' ∉ m ++ v) :
    Gives (markupTurn c .element ({}, 0)) r fun t r' => ∃ ts,
      t = .again (({} : MarkupRun).addText ts, 0) ∧ Takes r ts r' ∧ r'.tokenizer.rest <:+ v := by
  obtain ⟨x, w, hw, -⟩ := Text.eq_cons_of_markup hm
  have hcons : r.tokenizer.rest = '<' :: '!' :: x :: (w ++ v) := by rw [hrest, hw]; rfl
  obtain ⟨u, hu, hangle⟩ := Option.map_eq_some_iff.mp (kind_of_data hr hcons)
  unfold markupTurn
  rw [gives_bind]
  refine (switchTo_same hr.language).mono ?_
  rintro _ _ rfl
  rw [if_neg (by decide), gives_bind, gives_peek?, hu]
  dsimp only
  rw [show u.kind = .openAngle from hangle]
  dsimp only
  rw [gives_bind, takeTag, gives_bind, gives_here, gives_bind]
  refine (tag_takes hm hr hrest hat _).mono ?_
  rintro t r' ⟨ts, rfl, htakes, hend⟩
  exact ⟨ts, rfl, htakes, hend⟩

/-- Where there is neither `@` nor `<` any more, a run of markup takes all that is left. -/
theorem markupLoop_text {scope : MarkupScope} {s : MarkupRun × Nat} (hs : GoesOn scope s.1) (hr : InMarkup r)
    (hat : '@' ∉ r.tokenizer.rest) (hangle : '<' ∉ r.tokenizer.rest) :
    Gives (loop (markupTurn c scope) s) r fun s' r' =>
      ∃ ts, s' = addText s ts ∧ Takes r ts r' ∧ r'.tokenizer.rest = [] := by
  refine takes_loop addText (I := fun s => GoesOn scope s.1) (P := fun u => '@' ∉ u ∧ '<' ∉ u)
    (E := AtEnd) (fun s _ _ => ?_) (fun _ _ h => h) (fun _ _ h => ?_) (fun _ _ _ h => h)
    (fun _ _ hs hr h => markupTurn_text hs hr h.1 h.2) hs hr ⟨hat, hangle⟩
  · exact congrArg (fun pending => ({ s.1 with pending }, s.2)) (List.append_assoc _ _ _)
  · exact ⟨fun hmem => h.1 (List.mem_append_right _ hmem), fun hmem => h.2 (List.mem_append_right _ hmem)⟩

/-- Behind a comment or a doctype, a run of markup in code is one piece of text. -/
theorem markupRun_takes {m v : Text} (hm : m.IsHtmlComment ∨ m.IsDoctype) (hr : InMarkup r)
    (hrest : r.tokenizer.rest = m ++ v) (hat : '@' ∉ m ++ v) (hv : '<' ∉ v) :
    Gives (markupRun c .element) r fun trees r' => ∃ ts,
      trees = [Tree.overTokens .markupText ts default] ∧ Takes r ts r' ∧ r'.tokenizer.rest = [] := by
  obtain ⟨x, w, hw, -⟩ := Text.eq_cons_of_markup hm
  -- no `<` is left behind the first turn, so no element will be complete and end the run
  have hloop : Gives (loop (markupTurn c .element) ({}, 0)) r fun s r' => ∃ ts,
      s = (({} : MarkupRun).addText ts, 0) ∧ Takes r ts r' ∧ r'.tokenizer.rest = [] := by
    refine gives_loop_again ((markupTurn_tag hm hr hrest hat).mono ?_)
    rintro _ r' ⟨ts, rfl, htakes, hsuffix⟩
    refine ⟨_, rfl, ?_, ?_⟩
    · have hlength := hsuffix.length_le
      have hmore : r.tokenizer.rest.length = w.length + 3 + v.length := by
        rw [hrest, hw, List.length_append]
        rfl
      have hleft := hr.left
      have hleft' := htakes.markup.left
      omega
    · refine (markupLoop_text (Or.inr ⟨rfl, rfl⟩) htakes.markup
        (fun h => hat (List.mem_append_right _ (hsuffix.subset h))) fun h => hv (hsuffix.subset h)).mono ?_
      rintro _ r'' ⟨us, rfl, hmore, hend⟩
      exact ⟨ts ++ us, rfl, htakes.trans hmore, hend⟩
  unfold markupRun
  rw [gives_bind]
  refine hloop.mono ?_
  rintro _ r' ⟨ts, rfl, htakes, hend⟩
  cases ts with
  | nil =>
      have hcontent := htakes.reads.run.content
      rw [hrest, hend, hw] at hcontent
      exact nomatch hcontent
  | cons t ts => exact ⟨t :: ts, rfl, htakes, hend⟩

/-- Markup in code that starts with a comment or a doctype is one piece of text. -/
theorem markup_takes (fileKind : FileKind) {m v : Text} (hm : m.IsHtmlComment ∨ m.IsDoctype) (hr : InMarkup r)
    (hrest : r.tokenizer.rest = m ++ v) (hat : '@' ∉ m ++ v) (hv : '<' ∉ v) :
    Gives (markup fileKind .element) r fun trees r' => ∃ ts,
      trees = [Tree.overTokens .markupText ts default] ∧ Takes r ts r' ∧ r'.tokenizer.rest = [] :=
  gives_markup.mpr (markupRun_takes hm hr hrest hat hv)

/-! ## A transition at the start -/

section Start

variable {c : Surroundings} {P : Tree → Reader → Prop} {x : Char} {rest : Text}
  (hmark : Html.cut '@' (x :: rest) = { kind := .transition }) (hsingle : (Html.cut x rest).kind ≠ .transition)
include hmark hsingle

/-- A transition that nothing stands before is not part of an address; with no other one behind it, it leads to
    code. -/
theorem takeTransition_start (hr : InMarkup r) (hbefore : r.before = none) (hrest : r.tokenizer.rest = '@' :: x :: rest)
    (hcode : Gives (codeTransition c) r P) (run : MarkupRun) :
    Gives (takeTransition c run) r fun run' r' => ∃ node, run' = run.push node ∧ P node r' := by
  have hbehind : (r.tokenizer.peekNth? 1).map (·.kind) = some (Html.cut x rest).kind := by
    obtain ⟨t, -, -, -, hr₁, hrest₁⟩ := (bump_single hr hrest hmark).2
    rw [← peekNth?_bump]
    exact kind_of_data hr₁ hrest₁
  unfold takeTransition
  rw [gives_bind, escapeAhead, gives_bind, gives_kindAt?, gives_pure, hbehind]
  rw [if_neg fun h => hsingle (Option.some.inj (beq_iff_eq.mp h)), gives_bind, addressAhead, gives_bind, gives_get]
  dsimp only
  rw [hbefore]
  dsimp only
  rw [gives_pure, if_neg (by decide), gives_bind]
  exact hcode.mono fun node r' h => ⟨node, rfl, h⟩

/-- A document that starts with such a transition has the code behind it as its first node. -/
theorem markupTurn_start (hr : InMarkup r) (hbefore : r.before = none) (hrest : r.tokenizer.rest = '@' :: x :: rest)
    (hcode : Gives (codeTransition c) r P) :
    Gives (markupTurn c .document ({}, 0)) r fun t r' =>
      ∃ node, t = .again (({} : MarkupRun).push node, 0) ∧ P node r' := by
  obtain ⟨u, hu, hkind⟩ := Option.map_eq_some_iff.mp (kind_of_data hr hrest)
  unfold markupTurn
  rw [gives_bind]
  refine (switchTo_same hr.language).mono ?_
  rintro _ _ rfl
  rw [if_neg (by decide), gives_bind, gives_peek?, hu]
  dsimp only
  rw [show u.kind = .transition from hkind.trans (congrArg (·.kind) hmark)]
  dsimp only
  rw [gives_bind]
  refine (takeTransition_start hmark hsingle hr hbefore hrest hcode {}).mono ?_
  rintro _ r' ⟨node, rfl, h⟩
  exact ⟨node, rfl, h⟩

end Start

/-! ## The block of code around it -/

/-- Markup is looked for where `<!` starts a statement. -/
theorem markupFollows_bang (hr : ReadsIn .csharp r) {x : Char} {rest : Text}
    (hrest : r.tokenizer.rest = '<' :: '!' :: x :: rest) (hx : x ∈ ['-', 'd', 'D']) :
    r.tokenizer.peek?.map (·.kind) = some .lessThan ∧ Gives (markupFollows 1) r fun b r' => b = true ∧ r = r' := by
  obtain ⟨hkind, t, -, -, -, hr', hbehind⟩ := bump_single hr hrest rfl
  refine ⟨hkind, ?_⟩
  have hcut : Tokenizer.cut .csharp .data '!' (x :: rest) = { kind := .not } := by
    rcases List.mem_cons.mp hx with rfl | hx
    · rfl
    rcases List.mem_cons.mp hx with rfl | hx
    · rfl
    rw [List.mem_singleton.mp hx]
    rfl
  obtain ⟨u, hu, hnot⟩ := Option.map_eq_some_iff.mp (bump_single hr' hbehind hcut).1
  rw [Tokenizer.peek?, peekNth?_bump] at hu
  unfold markupFollows
  rw [gives_bind, gives_peekNth?, hu]
  dsimp only
  rw [show u.kind = .not from hnot]
  exact ⟨rfl, rfl⟩

/-- The surroundings of code read a text as one piece of markup. -/
def TakesAll (c : Surroundings) (t : Text) : Prop :=
  ∀ r, InMarkup r → r.tokenizer.rest = t → Gives (c.markup .element) r fun trees r' =>
    ∃ ts, trees = [Tree.overTokens .markupText ts default] ∧ Takes r ts r' ∧ r'.tokenizer.rest = []

/-- A block of markup in code that is one piece of text. -/
def textBlock (ts : List Token) (place : Span) : Tree :=
  Tree.spanning .markupBlock [Tree.overTokens .markupText ts default] place

theorem owned_textBlock (owner : NodeKind) (ts : List Token) (place : Span) :
    (textBlock ts place).owned owner = ts.map fun t => (.markupText, t) := by
  rw [textBlock, owned_spanning, List.flatMap_singleton, owned_overTokens]

theorem elementInCode_takes {t : Text} (hc : TakesAll c t) (hr : ReadsIn .csharp r)
    (hrest : r.tokenizer.rest = t) : Gives (elementInCode c []) r fun node r' => ∃ ts place,
      node = textBlock ts place ∧ Quiet r ts r' ∧ InMarkup r' ∧ r'.tokenizer.rest = [] := by
  unfold elementInCode transitionNode
  rw [gives_bind, gives_here, if_pos (show ([] : List Token).isEmpty = true from rfl), gives_bind, gives_pure,
    gives_bind]
  refine (switchTo_quiet hr.mode).mono ?_
  rintro _ r₁ ⟨hmarkup, hquiet⟩
  rw [gives_bind]
  refine (hc r₁ hmarkup (hquiet.reads.rest_eq.trans hrest)).mono ?_
  rintro _ r₂ ⟨ts, rfl, htakes, hend⟩
  exact ⟨ts, _, rfl, hquiet.trans htakes.toQuiet, htakes.markup, hend⟩

theorem blockTurn_end (b : BlockState) (hr : InMarkup r) (hend : r.tokenizer.rest = []) :
    Gives (blockTurn c b) r fun t r' => t = .done b ∧ ReadsIn .csharp r' ∧ Quiet r [] r' := by
  unfold blockTurn
  rw [gives_bind]
  refine (switchTo_quiet hr.mode).mono ?_
  rintro _ r' ⟨hcode, hquiet⟩
  rw [gives_bind, gives_kind?, peek?_of_end hcode (hquiet.reads.rest_eq.trans hend)]
  exact ⟨rfl, hcode, hquiet⟩

/-- The report of a block whose closing brace is missing at the place of the reader. -/
def missingBrace (r : Reader) : Diagnostic :=
  ⟨.missingClose "code" '\x7b' '\x7d', Span.empty r.tokenizer.path r.tokenizer.place⟩

/-- Tokens without a flaw lie between two readers, the text ends there, and it is reported that the brace which
    closes a block is missing. -/
structure Unclosed (r : Reader) (ts : List Token) (r' : Reader) : Prop where
  reads : r.Reads ts r'
  flawless : ∀ t ∈ ts, t.flaw = none
  reported : r'.reported = missingBrace r' :: r.reported
  rest : r'.tokenizer.rest = []

theorem Unclosed.behind {r' r'' : Reader} {ts us : List Token} (h' : Unclosed r' us r'') (h : Quiet r ts r') :
    Unclosed r (ts ++ us) r'' where
  reads := h.reads.trans h'.reads
  flawless := List.forall_mem_append.mpr ⟨h.flawless, h'.flawless⟩
  reported := h'.reported.trans (congrArg (missingBrace r'' :: ·) h.reported)
  rest := h'.rest

theorem Unclosed.trans {r' r'' : Reader} {ts : List Token} (h : Unclosed r ts r') (h' : Quiet r' [] r'') :
    Unclosed r ts r'' where
  reads := h.reads.trans_nil h'.reads
  flawless := h.flawless
  reported := by
    rw [h'.reported, h.reported, missingBrace, missingBrace, h'.reads.path, h'.reads.run.place]
    rfl
  rest := h'.reads.rest_eq.trans h.rest

/-- What is made of a block that starts with a comment or a doctype: its transition and its brace, and text of
    markup up to the end of the source. -/
def ReadsUnclosed (r : Reader) (node : Tree) (r' : Reader) : Prop :=
  ∃ mark brace ts, mark.content = ['@'] ∧ brace.content = ['\x7b'] ∧
    (∀ owner, node.owned owner = (.codeTransition, mark) :: (.metaCode, brace) ::
      ts.map fun t => (.markupText, t)) ∧ Unclosed r (mark :: brace :: ts) r'

theorem closeBraceNode_end (hr : ReadsIn .csharp r) (hend : r.tokenizer.rest = []) :
    Gives closeBraceNode r fun trees r' => trees = [] ∧ r = r' := by
  unfold closeBraceNode
  rw [gives_bind]
  refine (switchTo_same hr.language).mono ?_
  rintro _ _ rfl
  rw [gives_bind, gives_isAt, peek?_of_end hr hend]
  exact ⟨rfl, rfl⟩

section Block

variable {x : Char} {rest : Text} (hc : TakesAll c ('<' :: '!' :: x :: rest)) (hx : x ∈ ['-', 'd', 'D'])
include hc hx

theorem blockTurn_markup (hr : ReadsIn .csharp r) (hrest : r.tokenizer.rest = '<' :: '!' :: x :: rest) :
    Gives (blockTurn c { run := {} }) r fun t r' => ∃ ts place,
      t = .again { run := ({} : CodeRun).push (textBlock ts place) } ∧ Quiet r ts r' ∧ InMarkup r' ∧
        r'.tokenizer.rest = [] := by
  obtain ⟨hkind, hfollows⟩ := markupFollows_bang hr hrest hx
  unfold blockTurn
  rw [gives_bind]
  refine (switchTo_same hr.language).mono ?_
  rintro _ _ rfl
  rw [gives_bind, gives_kind?, hkind]
  dsimp only
  rw [gives_bind]
  refine hfollows.mono ?_
  rintro _ _ ⟨rfl, rfl⟩
  rw [if_pos (by decide), gives_bind]
  refine (elementInCode_takes hc hr hrest).mono ?_
  rintro node r' ⟨ts, place, rfl, hquiet, hmarkup, hend⟩
  exact ⟨ts, place, rfl, hquiet, hmarkup, hend⟩

/-- Nothing of the statements behind a comment or a doctype is left to be code. -/
theorem blockStatements_markup (hr : ReadsIn .csharp r) (hrest : r.tokenizer.rest = '<' :: '!' :: x :: rest) :
    Gives (blockStatements c {}) r fun run r' => ∃ ts place,
      run = ({} : CodeRun).push (textBlock ts place) ∧ Unclosed r ts r' ∧ ReadsIn .csharp r' := by
  have hloop : Gives (loop (blockTurn c) { run := {} }) r fun b r' => ∃ ts place,
      b = { run := ({} : CodeRun).push (textBlock ts place) } ∧ Quiet r ts r' ∧ ReadsIn .csharp r' ∧
        r'.tokenizer.rest = [] := by
    refine gives_loop_again ((blockTurn_markup hc hx hr hrest).mono ?_)
    rintro _ r₁ ⟨ts, place, rfl, hquiet, hmarkup, hend⟩
    refine ⟨_, rfl, ?_, gives_loop_done ((blockTurn_end _ hmarkup hend).mono ?_)⟩
    · rw [hmarkup.left, hr.left, hend, hrest]
      exact Nat.zero_lt_succ _
    · rintro _ r₂ ⟨rfl, hcode, hquiet'⟩
      refine ⟨_, rfl, ts, place, rfl, ?_, hcode, hquiet'.reads.rest_eq.trans hend⟩
      have hboth := hquiet.trans hquiet'
      rwa [List.append_nil] at hboth
  unfold blockStatements
  rw [gives_bind]
  refine hloop.mono ?_
  rintro _ r' ⟨ts, place, rfl, hquiet, hcode, hend⟩
  rw [gives_bind, gives_peek?, peek?_of_end hcode hend, if_pos (by decide), gives_bind, gives_here]
  refine ⟨ts, place, rfl, ⟨hquiet.reads.trans_nil (report_reads _ _ _), hquiet.flawless, ?_, hend⟩,
    hcode.language, hcode.mode⟩
  exact congrArg (missingBrace r' :: ·) hquiet.reported

/-- The block starts with a comment or a doctype, and has no end. -/
theorem statementBlock_markup (hr : ReadsIn .csharp r)
    (hrest : r.tokenizer.rest = '\x7b' :: '<' :: '!' :: x :: rest) (transition : Tree) :
    Gives (statementBlock c transition) r fun node r' => ∃ brace ts, brace.content = ['\x7b'] ∧
      (∀ owner, node.owned owner = transition.owned .statement ++ (.metaCode, brace) ::
        ts.map (NodeKind.markupText, ·)) ∧ Unclosed r (brace :: ts) r' ∧ ReadsIn .csharp r' := by
  unfold statementBlock
  rw [gives_bind]
  refine (bump_single hr hrest rfl).2.mono ?_
  rintro _ r₁ ⟨brace, rfl, hcontent, hquiet, hr₁, hrest₁⟩
  rw [gives_bind, gives_nodeOver, gives_bind, codeBlockNode, gives_bind]
  refine (blockStatements_markup hc hx hr₁ hrest₁).mono ?_
  rintro _ r₂ ⟨ts, place, rfl, hunclosed, hr₂⟩
  rw [gives_bind, gives_here, gives_pure, gives_bind]
  refine (closeBraceNode_end hr₂ hunclosed.rest).mono ?_
  rintro _ _ ⟨rfl, rfl⟩
  refine ⟨brace, ts, hcontent, fun owner => ?_, hunclosed.behind hquiet, hr₂⟩
  have hcode : (({} : CodeRun).push (textBlock ts place)).finish = [textBlock ts place] := rfl
  rw [hcode]
  refine (owned_spanning owner .statement _ _ none).trans ?_
  simp only [List.flatMap_cons, List.flatMap_nil, List.cons_append, List.nil_append, List.append_nil, owned_spanning,
    owned_overTokens, owned_textBlock, List.map_cons, List.map_nil]

theorem codeTransition_markup (hr : InMarkup r)
    (hrest : r.tokenizer.rest = '@' :: '\x7b' :: '<' :: '!' :: x :: rest) :
    Gives (codeTransition c) r fun node r' => ReadsUnclosed r node r' ∧ r'.tokenizer.mode = .data := by
  unfold codeTransition
  rw [gives_bind, gives_here, gives_bind]
  refine (bump_single hr hrest rfl).2.mono ?_
  rintro _ r₁ ⟨mark, rfl, hmark, hquiet, hr₁, hrest₁⟩
  rw [gives_bind, gives_nodeOver, gives_bind]
  refine (switchTo_quiet hr₁.mode).mono ?_
  rintro _ r₂ ⟨hcode, hswitch⟩
  have hrest₂ := hswitch.reads.rest_eq.trans hrest₁
  obtain ⟨u, hu, hbrace⟩ := Option.map_eq_some_iff.mp (bump_single hcode hrest₂ rfl).1
  rw [gives_bind, gives_peek?, hu]
  dsimp only
  rw [show u.kind = .openBrace from hbrace]
  dsimp only
  rw [gives_bind]
  refine (statementBlock_markup hc hx hcode hrest₂ _).mono ?_
  rintro node r₃ ⟨brace, ts, hcontent, howned, hunclosed, hr₃⟩
  refine ⟨⟨mark, brace, ts, hmark, hcontent, fun owner => ?_, ?_⟩, hr₃.mode⟩
  · refine (owned_spanning owner .codeBlock [node] _ none).trans ?_
    rw [List.flatMap_singleton, howned, owned_overTokens]
    rfl
  · exact hunclosed.behind (hquiet.trans hswitch)

/-! ## The run of markup around the block -/

/-- The run of markup of a document that is such a block is the node of the block. -/
theorem markupRun_unclosed (hr : InMarkup r) (hbefore : r.before = none)
    (hrest : r.tokenizer.rest = '@' :: '\x7b' :: '<' :: '!' :: x :: rest) :
    Gives (markupRun c .document) r fun trees r' => ∃ node, trees = [node] ∧ ReadsUnclosed r node r' := by
  have hfirst := markupTurn_start (x := '\x7b') rfl (show TokenKind.text ≠ .transition by decide) hr hbefore hrest
    (codeTransition_markup hc hx hr hrest)
  have hloop : Gives (loop (markupTurn c .document) ({}, 0)) r fun s r' => ∃ node,
      s = (({} : MarkupRun).push node, 0) ∧ ReadsUnclosed r node r' := by
    refine gives_loop_again (hfirst.mono ?_)
    rintro _ r₁ ⟨node, rfl, ⟨mark, brace, ts, hmark, hbrace, howned, hunclosed⟩, hmode⟩
    refine ⟨_, rfl, ?_, gives_loop_done ?_⟩
    · rw [hr.left, Reader.left, Tokenizer.left, hunclosed.rest, hrest, if_neg (by rw [hmode]; decide)]
      exact Nat.zero_lt_succ _
    · unfold markupTurn
      rw [gives_bind]
      refine (switchTo_quiet hmode).mono ?_
      rintro _ r₂ ⟨hr₂, hquiet⟩
      have hunclosed' := hunclosed.trans hquiet
      rw [if_neg (by exact Bool.false_ne_true), gives_bind, gives_peek?, peek?_of_end hr₂ hunclosed'.rest]
      exact ⟨_, rfl, node, rfl, mark, brace, ts, hmark, hbrace, howned, hunclosed'⟩
  unfold markupRun
  rw [gives_bind]
  refine hloop.mono ?_
  rintro _ r' ⟨node, rfl, hreads⟩
  exact ⟨node, rfl, hreads⟩

end Block

theorem markup_unclosed (fileKind : FileKind) {m s : Text} (hm : m.IsHtmlComment ∨ m.IsDoctype) (hr : InMarkup r)
    (hbefore : r.before = none) (hrest : r.tokenizer.rest = "@\x7b".toList ++ (m ++ s)) (hat : '@' ∉ m ++ s)
    (hs : '<' ∉ s) : Gives (markup fileKind .document) r fun trees r' => ∃ node,
      trees = [node] ∧ ReadsUnclosed r node r' := by
  obtain ⟨x, w, hw, hx⟩ := Text.eq_cons_of_markup hm
  have hcons : r.tokenizer.rest = '@' :: '\x7b' :: '<' :: '!' :: x :: (w ++ s) := by rw [hrest, hw]; rfl
  refine gives_markup.mpr (markupRun_unclosed (fun r' hr' hrest' => ?_) hx hr hbefore hcons)
  -- the surroundings of code read markup only where less is left, as there is behind the brace
  have hlt : r'.left < r.left := by
    rw [hr'.left, hr.left, hrest', hcons]
    simp only [List.length_cons]
    omega
  exact (gives_around_of_lt hlt).mpr (markup_takes fileKind hm hr' (v := s) (by rw [hrest', hw]; rfl) hat hs)

end Grammar

/-! ## The document -/

namespace Text

/-- The depth of braces behind some tokens of code, unless one closes what none of them has opened. -/
def braceDepth? (ts : List Token) : Option Nat :=
  ts.foldlM (fun depth t =>
    match t.kind with
    | .openBrace => some (depth + 1)
    | .closeBrace => if depth = 0 then none else some (depth - 1)
    | _ => some depth) 0

/-- Code that can stand in a block: its braces are balanced, none of its tokens has a flaw, and it does not end in
    a comment that goes up to the end of the line. -/
structure IsBlockCode (s : Text) : Prop where
  balanced : braceDepth? (Tokenizer.start .csharp none .start s).tokens = some 0
  flawless : ∀ t ∈ (Tokenizer.start .csharp none .start s).tokens, t.flaw = none
  ended : ∀ t ∈ (Tokenizer.start .csharp none .start s).tokens.getLast?, t.content.take 2 ≠ "//".toList

end Text

namespace ParsedDocument

/-- A comment or a doctype at the start of a block of code is text of markup together with everything behind it,
    up to the end of the source. So the block has no code and no end, which is all that is wrong with the source:
    the brace that should close the block is part of the text, and is reported to be missing. -/
theorem parse_markup_in_block (fileKind : FileKind) {d : Source} {m s : Text} (hm : m.IsHtmlComment ∨ m.IsDoctype)
    (hat : '@' ∉ m) (hs : '@' ∉ s) (hs' : '<' ∉ s)
    (hd : d.text = "@\x7b".toList ++ m ++ s ++ "\x7d".toList) :
    (parse fileKind d).diagnostics =
        [⟨.missingClose "code" '\x7b' '\x7d', Span.empty d.path (Location.start.advance d.text)⟩] ∧
      ∃ mark brace ts, (parse fileKind d).root.owned .document =
          (.codeTransition, mark) :: (.metaCode, brace) :: ts.map (fun t => (.markupText, t)) ∧
        mark.content = "@".toList ∧ brace.content = "\x7b".toList ∧ contentOf ts = m ++ s ++ "\x7d".toList := by
  have hrest : d.text = "@\x7b".toList ++ (m ++ (s ++ "\x7d".toList)) := by
    rw [hd, List.append_assoc, List.append_assoc]
  obtain ⟨node, htrees, mark, brace, ts, hmark, hbrace, howned, hunclosed⟩ :=
    markup_unclosed fileKind hm (r := readerOf d) ⟨rfl, rfl⟩ rfl hrest (by simp [hat, hs]) (by simp [hs'])
  have hroot : (parse fileKind d).root.owned .document =
      (.codeTransition, mark) :: (.metaCode, brace) :: ts.map (fun t => (.markupText, t)) := by
    refine (owned_spanning .document .document _ _ none).trans ?_
    rw [htrees, List.flatMap_singleton, owned_spanning, List.flatMap_singleton, howned]
  have hrun := hunclosed.reads.run
  rw [hunclosed.rest] at hrun
  have hall : contentOf (mark :: brace :: ts) = d.text := hrun.contentOf_eq
  refine ⟨?_, mark, brace, ts, hroot, hmark, hbrace, ?_⟩
  · have htokens : (parse fileKind d).root.tokens = mark :: brace :: ts := by
      rw [← map_snd_owned .document, hroot, List.map_cons, List.map_cons, List.map_map]
      exact congrArg (mark :: brace :: ·) (List.map_id ts)
    have hflaws : (parse fileKind d).root.tokens.flatMap Token.diagnostics = [] := by
      rw [htokens]
      exact List.flatMap_eq_nil_iff.mpr fun t ht => by rw [Token.diagnostics, hunclosed.flawless t ht]; rfl
    show arrange _ (parse fileKind d).root = _
    rw [arrange, hflaws, hunclosed.reported, missingBrace, hunclosed.reads.path, hrun.place, hall, List.append_nil]
    exact congrArg Diagnostic.dropRepeats (List.mergeSort_singleton _)
  · rw [contentOf_cons, contentOf_cons, hmark, hbrace, hrest] at hall
    rw [List.append_assoc]
    exact (List.cons.inj (List.cons.inj hall).2).2

/-- A block with a doctype, and the report behind its last character. -/
theorem parse_markup_in_block_doctype :
    (parse .legacy (.anonymous "@\x7b<!DOCTYPE html>\nx();\x7d")).diagnostics =
        [⟨.missingClose "code" '\x7b' '\x7d', none, ⟨23, 1, 5⟩, 0⟩] ∧
      ∃ mark brace ts, (parse .legacy (.anonymous "@\x7b<!DOCTYPE html>\nx();\x7d")).root.owned .document =
          (.codeTransition, mark) :: (.metaCode, brace) :: ts.map (fun t => (.markupText, t)) ∧
        mark.content = "@".toList ∧ brace.content = "\x7b".toList ∧
        contentOf ts = "<!DOCTYPE html>\nx();\x7d".toList :=
  parse_markup_in_block .legacy (m := "<!DOCTYPE html>".toList) (s := "\nx();".toList)
    (Or.inr ⟨"DOCTYPE".toList, " html".toList, rfl, by decide, by decide⟩) (by decide) (by decide) (by decide) rfl

/-- A statement behind an element is code, and its block has an end. The same statement behind a comment is not
    code, and its block has no end. -/
theorem statement_behind_comment :
    Text.IsHtmlComment "<!--c-->".toList ∧ Text.IsBlockCode "x();".toList ∧
      (parse .legacy (.anonymous "@\x7b<b>c</b>x();\x7d")).diagnostics = [] ∧
      (parse .legacy (.anonymous "@\x7b<!--c-->x();\x7d")).diagnostics ≠ [] ∧
      (∃ e ∈ (parse .legacy (.anonymous "@\x7b<b>c</b>x();\x7d")).root.owned .document,
        e.1 = .statementCode ∧ e.2.content = "x".toList) ∧
      ∀ e ∈ (parse .legacy (.anonymous "@\x7b<!--c-->x();\x7d")).root.owned .document, e.1 ≠ .statementCode := by
  refine ⟨⟨"c".toList, rfl, by decide⟩, ⟨by decide +kernel, by decide +kernel, by decide +kernel⟩, ?_⟩
  decide +kernel

end ParsedDocument

end RazorLang
