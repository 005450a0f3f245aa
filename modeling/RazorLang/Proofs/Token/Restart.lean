import RazorLang.Proofs.Token.Lossless

/-!
# Starting again between two tokens

Between two tokens a tokenizer remembers its mode and nothing else that the source does not know: its place is
the location of the offset that it has come to (`Tokenizer.StandsIn`), since no token ends inside of a line
break. So where it is in no comment and behind no escape, one that is started there is the same tokenizer
(`Tokenizer.StandsIn.ofSource_eq_self`), and the one of the other language may be started there as well
(`Tokenizer.StandsIn.switch`).

Main statement: `Tokenizer.steps_ofSource_stop` — behind such a token, a new tokenizer gives out what is left of
the tokens from the start on.
-/

namespace RazorLang

open Text

namespace Tokenizer

variable {d : Source} {s s' : Tokenizer} {t : Token} {language : Language}

/-- What a tokenizer has ahead is an end of a source, and it is at the place that the source gives to the offset
    where that begins. -/
structure StandsIn (d : Source) (s : Tokenizer) : Prop where
  path : s.path = d.path
  parts : ∃ u, d.text = u ++ s.rest ∧ s.place = d.location (Text.size u)

/-- A tokenizer may be started between any two characters. -/
theorem standsIn_ofSource {u v : Text} (h : d.text = u ++ v) :
    (ofSource language d (Text.size u)).StandsIn d := by
  rw [ofSource_eq language h]
  exact ⟨rfl, u, h, rfl⟩

theorem location_offset {u v : Text} (h : d.text = u ++ v) : (d.location (Text.size u)).offset = Text.size u := by
  refine Nat.min_eq_left ?_
  rw [Source.size, h, size_append]
  exact Nat.le_add_right _ _

theorem language_of_next? (h : s.next? = some (t, s')) : s'.language = s.language := by
  unfold next? at h
  split at h
  · have hbody : s.nextBody = (t, s') := Option.some.inj h
    unfold nextBody at hbody
    split at hbody
    · obtain ⟨-, rfl⟩ := Prod.mk.inj hbody
      rfl
    · obtain ⟨-, rfl⟩ := Prod.mk.inj hbody
      rfl
  · split at h
    · exact nomatch h
    · obtain ⟨-, rfl⟩ := Prod.mk.inj (Option.some.inj h)
      rfl

/-- A token leads from a place of a source to the place where it ends. -/
theorem StandsIn.next? (h : s.StandsIn d) (hnext : s.next? = some (t, s')) :
    s'.StandsIn d ∧ s'.place.offset = t.span.stop := by
  obtain ⟨hpath, u, htext, hplace⟩ := h
  obtain ⟨hrun, hpath'⟩ := next?_run hnext
  have hrest : s.rest = t.content ++ s'.rest := (next?_content hnext).symm
  rw [hrest] at htext
  have hbehind : s'.place = s.place.advance t.content := by
    rw [hrun.place, contentOf_cons, contentOf_nil, List.append_nil]
  have hwhole : ¬ PartsBreak t.content s'.rest := by
    have := hrun.whole
    rwa [contentOf_cons, contentOf_nil, List.append_nil] at this
  constructor
  · refine ⟨hpath'.trans hpath, u ++ t.content, ?_, ?_⟩
    · rw [htext, List.append_assoc]
    · rw [hbehind, hplace, Source.advance_location htext hwhole]
  · rw [hrun.head_span, hbehind, Location.advance_offset]
    rfl

/-- Where nothing is remembered, a tokenizer is one that is started there. -/
theorem StandsIn.ofSource_eq_self (h : s.StandsIn d) (hmode : s.mode = .data) :
    ofSource s.language d s.place.offset = s := by
  obtain ⟨hpath, u, htext, hplace⟩ := h
  rw [hplace, location_offset htext, ofSource_eq s.language htext, ← hplace, ← hpath]
  cases s with
  | mk language mode rest place path =>
      obtain rfl : mode = .data := hmode
      rfl

/-- Reading on in the other language is to start there, whatever is remembered. -/
theorem StandsIn.switch (h : s.StandsIn d) (hother : s.language ≠ language) :
    s.switch language = ofSource language d s.place.offset := by
  have hstands : ({ s with language, mode := .data } : Tokenizer).StandsIn d := ⟨h.path, h.parts⟩
  rw [Tokenizer.switch, if_neg hother]
  exact (hstands.ofSource_eq_self rfl).symm

/-- The first of the tokens ahead is the next one, and the others are those behind it. -/
theorem next?_of_steps {after : List (Token × Tokenizer)} (h : s.steps = (t, s') :: after) :
    s.next? = some (t, s') ∧ s'.steps = after := by
  rw [steps] at h
  split at h
  · exact nomatch h
  · next t₁ s₁ hnext =>
      obtain ⟨hfirst, hafter⟩ := List.cons.inj h
      obtain ⟨rfl, rfl⟩ := Prod.mk.inj hfirst
      exact ⟨hnext, hafter⟩

/-- Along the tokens ahead, a tokenizer stays in its source and in its language, and what is left of the tokens
    is what the tokenizer behind each of them gives out. -/
theorem StandsIn.of_steps (h : s.StandsIn d) {before after : List (Token × Tokenizer)}
    (hsteps : s.steps = before ++ (t, s') :: after) :
    s'.StandsIn d ∧ s'.place.offset = t.span.stop ∧ s'.language = s.language ∧ s'.steps = after := by
  induction before generalizing s with
  | nil =>
      obtain ⟨hnext, hafter⟩ := next?_of_steps hsteps
      obtain ⟨hstands, hoffset⟩ := h.next? hnext
      exact ⟨hstands, hoffset, language_of_next? hnext, hafter⟩
  | cons first before ih =>
      obtain ⟨hnext, hrest⟩ := next?_of_steps hsteps
      obtain ⟨hstands, hoffset, hlanguage, hafter⟩ := ih (h.next? hnext).1 hrest
      exact ⟨hstands, hoffset, hlanguage.trans (language_of_next? hnext), hafter⟩

/-- A tokenizer can be started again: behind each token from the start of a source on that leaves nothing to
    remember, a new one is the tokenizer that has come there, and it gives out what is left of the tokens, each
    with the same kind, content, span and flaw, and goes through the same modes. -/
theorem steps_ofSource_stop (language : Language) (d : Source) {before after : List (Token × Tokenizer)}
    (hsteps : (ofSource language d 0).steps = before ++ (t, s') :: after) (hmode : s'.mode = .data) :
    ofSource language d t.span.stop = s' ∧ (ofSource language d t.span.stop).steps = after ∧
      (ofSource language d t.span.stop).tokens = after.map Prod.fst := by
  have hstart : (ofSource language d 0).StandsIn d := standsIn_ofSource (u := []) rfl
  obtain ⟨hstands, hoffset, hlanguage, hafter⟩ := hstart.of_steps hsteps
  have hsame : ofSource language d t.span.stop = s' := by
    have hself := hstands.ofSource_eq_self hmode
    rwa [hlanguage, hoffset] at hself
  rw [hsame]
  exact ⟨rfl, hafter, congrArg (List.map Prod.fst) hafter⟩

/-- Behind a comment, a literal that is broken off at the end of its line, and the line break after it. -/
theorem steps_ofSource_stop_behindComment :
    ∃ before t s' after,
      (ofSource .csharp (.anonymous "@* * *@\"a\r\nb") 0).steps = before ++ (t, s') :: after ∧ s'.mode = .data ∧
        t.kind = .string ∧ t.flaw = some .string ∧
          (ofSource .csharp (.anonymous "@* * *@\"a\r\nb") t.span.stop).tokens = after.map Prod.fst := by
  obtain ⟨⟨t, s'⟩, hmem, hmode, hkind, hflaw⟩ :
      ∃ p ∈ (ofSource .csharp (.anonymous "@* * *@\"a\r\nb") 0).steps,
        p.2.mode = .data ∧ p.1.kind = .string ∧ p.1.flaw = some .string := by
    decide +kernel
  obtain ⟨before, after, hsteps⟩ := List.append_of_mem hmem
  exact ⟨before, t, s', after, hsteps, hmode, hkind, hflaw, (steps_ofSource_stop _ _ hsteps hmode).2.2⟩

end Tokenizer

end RazorLang
