import RazorLang.Proofs.Grammar.Markup
import RazorLang.Proofs.Token.Html

/-!
# Markup without transitions

Tokens of markup that are not of Razor are read, and nothing is reported (`Takes`). A repetition whose turns
do no more than that reads them up to where its last turn ends (`takes_loop`).
-/

namespace RazorLang.Grammar

open Reader

variable {σ : Type} {r r' r'' : Reader} {ts us : List Token}

/-- The reader reads a language, and remembers nothing. -/
structure ReadsIn (language : Language) (r : Reader) : Prop where
  language : r.tokenizer.language = language
  mode : r.tokenizer.mode = .data

/-- The reader reads markup, and remembers nothing. -/
abbrev InMarkup (r : Reader) : Prop := ReadsIn .html r

theorem ReadsIn.left {language : Language} (hr : ReadsIn language r) :
    r.left = 2 * r.tokenizer.rest.length := by
  rw [Reader.left, Tokenizer.left, if_neg (by rw [hr.mode]; decide), Nat.add_zero]

/-- Tokens without a flaw lie between two readers, and nothing is reported. -/
structure Quiet (r : Reader) (ts : List Token) (r' : Reader) : Prop where
  reads : r.Reads ts r'
  flawless : ∀ t ∈ ts, t.flaw = none
  reported : r'.reported = r.reported

theorem Quiet.refl (r : Reader) : Quiet r [] r := ⟨Reads.refl r, nofun, rfl⟩

theorem Quiet.trans (h : Quiet r ts r') (h' : Quiet r' us r'') : Quiet r (ts ++ us) r'' where
  reads := h.reads.trans h'.reads
  flawless := List.forall_mem_append.mpr ⟨h.flawless, h'.flawless⟩
  reported := h'.reported.trans h.reported

/-- Tokens of markup that are not of Razor lie between two readers, and nothing is reported. -/
structure Takes (r : Reader) (ts : List Token) (r' : Reader) : Prop extends Quiet r ts r' where
  markup : InMarkup r'
  plain : '@' ∉ contentOf ts

theorem Takes.refl (hr : InMarkup r) : Takes r [] r := ⟨Quiet.refl r, hr, List.not_mem_nil⟩

theorem Takes.trans (h : Takes r ts r') (h' : Takes r' us r'') : Takes r (ts ++ us) r'' where
  toQuiet := h.toQuiet.trans h'.toQuiet
  markup := h'.markup
  plain := by
    rw [contentOf_append, List.mem_append, not_or]
    exact ⟨h.plain, h'.plain⟩

/-! ## Single tokens -/

theorem peekNth?_bump (r : Reader) (n : Nat) :
    (bump r).2.tokenizer.peekNth? n = r.tokenizer.peekNth? (n + 1) := by
  rw [Tokenizer.peekNth?]
  cases h : r.tokenizer.next? with
  | some next => rw [bump_eq h, Option.bind_some]
  | none =>
      rw [bump_end h, Option.bind_none]
      cases n with
      | zero => rw [Tokenizer.peekNth?, h, Option.map_none]
      | succ n => rw [Tokenizer.peekNth?, h, Option.bind_none]

theorem peek?_of_end {language : Language} (hr : ReadsIn language r) (hend : r.tokenizer.rest = []) :
    r.tokenizer.peek? = none := by
  rw [Tokenizer.peek?, Tokenizer.peekNth?, Tokenizer.next?, if_neg (by rw [hr.mode]; decide), hend]
  rfl

/-- The kind of the next token, which the rules of the language alone decide. -/
theorem peek_kind {language : Language} (hr : ReadsIn language r) {x : Char} {rest : Text}
    (hrest : r.tokenizer.rest = x :: rest) :
    r.tokenizer.peek?.map (·.kind) = some (Tokenizer.cut language .data x rest).kind := by
  rw [Tokenizer.peek?, Tokenizer.peekNth?, Tokenizer.next?_of_data hr.mode hrest rfl, hr.language]
  rfl

/-- The next token of a language, where nothing is remembered. -/
theorem bump_data {language : Language} (hr : ReadsIn language r) {x : Char} {rest : Text} {kind : TokenKind}
    {more : Nat} (hrest : r.tokenizer.rest = x :: rest)
    (hcut : Tokenizer.cut language .data x rest = { kind, more }) :
    (∃ t, r.tokenizer.peek? = some t ∧ t.kind = kind ∧ t.content = x :: rest.take more) ∧
      Gives bump r fun ts r' => ∃ t, ts = [t] ∧ t.content = x :: rest.take more ∧ Quiet r [t] r' ∧
        ReadsIn language r' ∧ r'.tokenizer.rest = rest.drop more := by
  have hnext := Tokenizer.next?_of_data hr.mode hrest (hr.language.symm ▸ hcut)
  constructor
  · rw [Tokenizer.peek?, Tokenizer.peekNth?, hnext]
    exact ⟨_, rfl, rfl, rfl⟩
  · have hreads := (bump_reads r).1
    unfold Gives
    rw [bump_eq hnext] at hreads ⊢
    refine ⟨_, rfl, rfl, ⟨hreads, fun t ht => ?_, rfl⟩, ⟨hr.language, rfl⟩, rfl⟩
    rw [List.mem_singleton.mp ht]

/-- A token that is a single character is taken. -/
theorem bump_single {language : Language} (hr : ReadsIn language r) {x : Char} {rest : Text} {kind : TokenKind}
    (hrest : r.tokenizer.rest = x :: rest) (hcut : Tokenizer.cut language .data x rest = { kind }) :
    r.tokenizer.peek?.map (·.kind) = some kind ∧ Gives bump r fun ts r' => ∃ t, ts = [t] ∧ t.content = [x] ∧
      Quiet r [t] r' ∧ ReadsIn language r' ∧ r'.tokenizer.rest = rest := by
  obtain ⟨-, htaken⟩ := bump_data hr hrest hcut
  exact ⟨(peek_kind hr hrest).trans (by rw [hcut]), htaken⟩

/-! ## Tokens of markup -/

theorem bump_takes_of_kind {kind : TokenKind} (hlanguage : r.tokenizer.language = .html)
    (hkind : r.tokenizer.peek?.map (·.kind) = some kind) (hplain : ¬ kind.IsRazor) :
    Gives bump r fun ts r' => Takes r ts r' := by
  obtain ⟨t, ht, rfl⟩ := Option.map_eq_some_iff.mp hkind
  obtain ⟨⟨t, s⟩, hnext, rfl⟩ := Option.map_eq_some_iff.mp ht
  obtain ⟨c, rest, -, hc, -, hcontent, hflaw, hmode, hhtml⟩ :=
    Tokenizer.next?_of_not_isRazor hlanguage hnext hplain
  have hreads := (bump_reads r).1
  unfold Gives
  rw [bump_eq hnext] at hreads ⊢
  refine ⟨⟨hreads, fun u hu => ?_, rfl⟩, ⟨hhtml, hmode⟩, fun h => hc ?_⟩
  · rw [List.mem_singleton.mp hu, hflaw]
  · rw [contentOf_cons, contentOf_nil, List.append_nil, hcontent] at h
    exact (Html.eq_of_mem_cut (by decide) (by decide) h).symm

theorem take_two_takes {kind kind' : TokenKind} (hlanguage : r.tokenizer.language = .html)
    (hkind : r.tokenizer.peek?.map (·.kind) = some kind) (hplain : ¬ kind.IsRazor)
    (hkind' : (r.tokenizer.peekNth? 1).map (·.kind) = some kind') (hplain' : ¬ kind'.IsRazor) :
    Gives (take 2) r fun ts r' => Takes r ts r' := by
  have hfirst := bump_takes_of_kind hlanguage hkind hplain
  rw [← peekNth?_bump] at hkind'
  have hsecond := bump_takes_of_kind hfirst.markup.language hkind' hplain'
  show Takes r ((bump r).1 ++ ((bump (bump r).2).1 ++ [])) (bump (bump r).2).2
  rw [List.append_nil]
  exact hfirst.trans hsecond

/-- The kind of the next token, which its first character and those behind it decide. -/
theorem kind_of_data (hr : InMarkup r) {c : Char} {rest : Text} (hrest : r.tokenizer.rest = c :: rest) :
    r.tokenizer.peek?.map (·.kind) = some (Html.cut c rest).kind := peek_kind hr hrest

/-- Where no `@` is next, the next token is not of Razor. -/
theorem not_isRazor_of_head (hr : InMarkup r) (hat : r.tokenizer.rest.head? ≠ some '@') {kind : TokenKind}
    (hkind : r.tokenizer.peek?.map (·.kind) = some kind) : ¬ kind.IsRazor := by
  cases hrest : r.tokenizer.rest with
  | nil =>
      rw [peek?_of_end hr hrest] at hkind
      exact absurd hkind.symm (Option.some_ne_none kind)
  | cons c rest =>
      rw [kind_of_data hr hrest] at hkind
      rw [← Option.some.inj hkind]
      refine Html.not_isRazor_cut ?_
      rintro rfl
      exact hat (by rw [hrest]; rfl)

theorem bump_takes (hr : InMarkup r) (hat : r.tokenizer.rest.head? ≠ some '@') :
    Gives bump r fun ts r' => Takes r ts r' := by
  cases hnext : r.tokenizer.next? with
  | none =>
      unfold Gives
      rw [bump_end hnext]
      exact Takes.refl hr
  | some next =>
      have hkind : r.tokenizer.peek?.map (·.kind) = some next.1.kind := by
        rw [Tokenizer.peek?, Tokenizer.peekNth?, hnext]
        rfl
      exact bump_takes_of_kind hr.language hkind (not_isRazor_of_head hr hat hkind)

/-- The next token is taken. -/
theorem bump_takes_next (hr : InMarkup r) (hat : r.tokenizer.rest.head? ≠ some '@') {t : Token}
    (ht : r.tokenizer.peek? = some t) : Gives bump r fun ts r' =>
      ts = [t] ∧ Takes r [t] r' ∧ r'.left < r.left ∧
        ∀ w, Html.spelling? t.kind = some w → t.content = w := by
  have htakes := bump_takes hr hat
  have hplain := not_isRazor_of_head hr hat (by rw [ht]; rfl)
  obtain ⟨⟨t, s⟩, hnext, rfl⟩ := Option.map_eq_some_iff.mp ht
  obtain ⟨c, rest, -, -, hkind, hcontent, -⟩ := Tokenizer.next?_of_not_isRazor hr.language hnext hplain
  unfold Gives at htakes ⊢
  rw [bump_eq hnext] at htakes ⊢
  refine ⟨rfl, htakes, Tokenizer.next?_left_lt hnext, fun w hw => ?_⟩
  rw [hcontent]
  exact Html.cut_spelling (hkind ▸ hw)

/-- One token is taken, unless there is no text left. -/
theorem bump_takes_token (hr : InMarkup r) (hat : r.tokenizer.rest.head? ≠ some '@') :
    Gives bump r fun ts r' => (ts = [] ∧ r = r' ∧ r.tokenizer.rest = []) ∨
      ∃ t, ts = [t] ∧ Takes r [t] r' ∧ r'.left < r.left ∧ r.tokenizer.peek? = some t ∧
        ∀ w, Html.spelling? t.kind = some w → t.content = w := by
  cases hpeek : r.tokenizer.peek? with
  | none =>
      unfold Gives
      rw [bump_end (Option.map_eq_none_iff.mp hpeek)]
      exact Or.inl ⟨rfl, rfl, rest_of_peek_eq_none hpeek⟩
  | some t =>
      refine (bump_takes_next hr hat hpeek).mono ?_
      rintro ts r' ⟨hts, htakes, hlt, hspelling⟩
      exact Or.inr ⟨t, hts, htakes, hlt, rfl, hspelling⟩

/-- What is taken of a text, and what is left of it. -/
theorem bump_takes_cut (hr : InMarkup r) {c : Char} {rest : Text} (hrest : r.tokenizer.rest = c :: rest)
    (hc : c ≠ '@') : Gives bump r fun ts r' => Takes r ts r' ∧
      contentOf ts = c :: rest.take (Html.cut c rest).more ∧
      r'.tokenizer.rest = rest.drop (Html.cut c rest).more := by
  have htakes := bump_takes hr (by rw [hrest]; exact fun h => hc (Option.some.inj h))
  unfold Gives at htakes ⊢
  refine ⟨htakes, ?_⟩
  rw [bump_eq (Tokenizer.next?_html hr.language hr.mode hrest)]
  exact ⟨List.append_nil _, rfl⟩

/-- The kind of the token behind one of a single character. -/
theorem kindAt_behind (hr : InMarkup r) {c x : Char} {rest : Text} (hrest : r.tokenizer.rest = c :: x :: rest)
    (hc : c ≠ '@') (hmore : (Html.cut c (x :: rest)).more = 0) :
    (r.tokenizer.peekNth? 1).map (·.kind) = some (Html.cut x rest).kind := by
  obtain ⟨htakes, -, hbehind⟩ := bump_takes_cut hr hrest hc
  rw [hmore, List.drop_zero] at hbehind
  rw [← peekNth?_bump]
  exact kind_of_data htakes.markup hbehind

/-- Reading on in the same language changes nothing. -/
theorem switchTo_same {language : Language} (h : r.tokenizer.language = language) :
    Gives (switchTo language) r fun _ r' => r = r' := by
  show r = { r with tokenizer := r.tokenizer.switch language }
  rw [Tokenizer.switch, if_pos h]

/-- Reading on in a language, where nothing is remembered. -/
theorem switchTo_quiet {language : Language} (h : r.tokenizer.mode = .data) :
    Gives (switchTo language) r fun _ r' => ReadsIn language r' ∧ Quiet r [] r' := by
  refine ⟨?_, switchTo_reads language r, nofun, rfl⟩
  show ReadsIn language { r with tokenizer := r.tokenizer.switch language }
  unfold Tokenizer.switch
  split
  · next hlanguage => exact ⟨hlanguage, h⟩
  · exact ⟨rfl, rfl⟩

/-! ## Repetition -/

/-- A turn takes tokens and adds them to something; one that asks for another turn leaves less to read, and
    the last one leads to an end. -/
def TurnTakes (add : σ → List Token → σ) (E : Text → Reader → Prop) (r : Reader) (s : σ) (t : Turn σ)
    (r' : Reader) : Prop :=
  ∃ ts, t.value = add s ts ∧ Takes r ts r' ∧
    match t with
    | .done _ => E (contentOf ts) r'
    | .again _ => r'.left < r.left

/-- A repetition of such turns takes tokens up to the end that the last one leads to. -/
theorem takes_loop (add : σ → List Token → σ) {I : σ → Prop} {P : Text → Prop} {E : Text → Reader → Prop}
    {turn : σ → Grammar (Turn σ)} (hadd : ∀ s ts us, add (add s ts) us = add s (ts ++ us))
    (hI : ∀ s ts, I s → I (add s ts)) (hP : ∀ u v, P (u ++ v) → P v) (hE : ∀ u v r, E v r → E (u ++ v) r)
    (hturn : ∀ s r, I s → InMarkup r → P r.tokenizer.rest → Gives (turn s) r (TurnTakes add E r s))
    {s : σ} (hs : I s) (hr : InMarkup r) (hrest : P r.tokenizer.rest) :
    Gives (loop turn s) r fun s' r' => ∃ ts, s' = add s ts ∧ Takes r ts r' ∧ E (contentOf ts) r' := by
  refine gives_loop_of_proceeds (I := fun s r => I s ∧ InMarkup r ∧ P r.tokenizer.rest)
    (P := fun s r s' r' => ∃ ts, s' = add s ts ∧ Takes r ts r' ∧ E (contentOf ts) r') ?_ ⟨hs, hr, hrest⟩
  rintro s r ⟨hs, hr, hrest⟩
  refine (hturn s r hs hr hrest).mono ?_
  rintro (s' | s') r' ⟨ts, hvalue, htakes, hend⟩
  · exact ⟨ts, hvalue, htakes, hend⟩
  · obtain rfl : s' = add s ts := hvalue
    have hrest' : P r'.tokenizer.rest := hP (contentOf ts) _ (htakes.reads.run.content ▸ hrest)
    refine (Turn.proceeds_again hend).mpr ⟨⟨hI s ts hs, htakes.markup, hrest'⟩, ?_⟩
    rintro s₁ r₁ ⟨us, hs₁, hmore, hlast⟩
    refine ⟨ts ++ us, hs₁.trans (hadd s ts us), htakes.trans hmore, ?_⟩
    rw [contentOf_append]
    exact hE _ _ _ hlast

end RazorLang.Grammar
