import RazorLang.Proofs.Text.Bytes
import RazorLang.Proofs.Token.Run

/-!
# Tokenizers lose nothing

A tokenizer may start at any offset between two characters of a source, also inside of a `\r\n` or in the
middle of what would be one token from further back. Main statement: `Tokenizer.ofSource_covers` — from there
on it gives out finitely many tokens that are together the text ahead, each where the source has it, and none
but the body of a comment is empty.

The route: each token is a run of its own (`Tokenizer.next?_run`), so all of them are one to the end of the
text (`tokens_run`), and a run that starts at a place of a source stays at places of the source
(`Token.Run.span_of_location`).
-/

namespace RazorLang

open Text

/-- Some tokens cover a source from an offset on: each starts where the one before it ends, the first of
    them at the offset; together they are the text from there on, no two of them share a `\r\n`, and the
    source knows the place of each. -/
structure Source.CoversFrom (d : Source) (offset : Nat) (ts : List Token) : Prop where
  text : fromByte? offset d.text = some (contentOf ts)
  first : ∀ t ∈ ts.head?, t.span.start.offset = offset
  adjacent : ts.IsChain fun s t => t.span.start.offset = s.span.stop
  whole : ∀ before after, ts = before ++ after → ¬ PartsBreak (contentOf before) (contentOf after)
  place : ∀ t ∈ ts, t.span.start = d.location t.span.start.offset
  length : ∀ t ∈ ts, t.span.length = Text.size t.content

/-- A run from a place of a source on: the source has its tokens where they say. -/
theorem Token.Run.span_of_location {d : Source} {path : Option Text} {l' : Location} {u s s' : Text}
    {ts : List Token} (h : Run path (d.location (Text.size u)) s ts l' s') (htext : d.text = u ++ s) :
    ∀ t ∈ ts, t.span = ⟨path, d.location t.span.start.offset, size t.content⟩ := by
  generalize hl : d.location (Text.size u) = l at h
  -- Along the run, `u` is what stands before the next token.
  induction h generalizing u with
  | nil l s =>
      intro t ht
      exact absurd ht List.not_mem_nil
  | @cons l l' first s s' ts span whole tail ih =>
      have hoffset : l.offset = Text.size u := by
        have hle : Text.size u ≤ d.size := by
          rw [Source.size, htext, size_append]
          exact Nat.le_add_right _ _
        rw [← hl]
        exact Nat.min_eq_left hle
      have hnext : d.location (Text.size (u ++ first.content)) = l.advance first.content := by
        rw [← Source.advance_location htext whole, hl]
      intro t ht
      rcases List.mem_cons.mp ht with rfl | ht
      · rw [span, hoffset, hl]
      · exact ih (htext.trans (List.append_assoc _ _ _).symm) hnext t ht

namespace Tokenizer

variable {s s' : Tokenizer} {t : Token}

/-- Only the body of a comment may be empty. -/
theorem next?_content_ne_nil (h : s.next? = some (t, s')) (hkind : t.kind ≠ .commentBody) :
    t.content ≠ [] := by
  rw [next?] at h
  split at h
  · have hbody : s.nextBody = (t, s') := Option.some.inj h
    have hcomment := s.nextBody_kind
    rw [hbody] at hcomment
    exact absurd hcomment hkind
  · cases hrest : s.rest with
    | nil =>
        rw [hrest] at h
        exact absurd h (Option.some_ne_none _).symm
    | cons c rest =>
        rw [hrest] at h
        obtain ⟨rfl, -⟩ := Prod.mk.inj (Option.some.inj h)
        exact List.cons_ne_nil _ _

/-- A tokenizer stops only at the end of the text. -/
theorem rest_of_next?_eq_none (h : s.next? = none) : s.rest = [] := by
  rw [next?] at h
  split at h
  · exact nomatch h
  · cases hrest : s.rest with
    | nil => rfl
    | cons c rest =>
        rw [hrest] at h
        exact nomatch h

theorem tokens_of_next?_eq_none (h : s.next? = none) : s.tokens = [] := by
  rw [tokens, steps]
  split
  · rfl
  · next hsome => exact absurd (h.symm.trans hsome) (Option.some_ne_none _).symm

theorem tokens_of_next?_eq_some (h : s.next? = some (t, s')) : s.tokens = t :: s'.tokens := by
  rw [tokens, steps]
  split
  · next hnone => exact absurd (h.symm.trans hnone) (Option.some_ne_none _)
  · next t₁ s₁ hsome =>
      obtain ⟨rfl, rfl⟩ := Prod.mk.inj (Option.some.inj (h.symm.trans hsome))
      rfl

/-- What holds at the end and is kept by each token before it holds of all tokenizers. -/
theorem next?_induction {motive : Tokenizer → Prop} (stop : ∀ s, s.next? = none → motive s)
    (step : ∀ s t s', s.next? = some (t, s') → motive s' → motive s) (s : Tokenizer) : motive s := by
  induction s using steps.induct with
  | case1 s hnone => exact stop s hnone
  | case2 s t s' hsome ih => exact step s t s' hsome ih

/-- The tokens ahead are a run to the end of the text. -/
theorem tokens_run (s : Tokenizer) : ∃ l, Token.Run s.path s.place s.rest s.tokens l [] := by
  induction s using next?_induction with
  | stop s hnone =>
      rw [tokens_of_next?_eq_none hnone, rest_of_next?_eq_none hnone]
      exact ⟨s.place, Token.Run.nil _ _⟩
  | step s t s' hsome ih =>
      obtain ⟨l, hrun⟩ := ih
      obtain ⟨hfirst, hpath⟩ := next?_run hsome
      rw [hpath] at hrun
      rw [tokens_of_next?_eq_some hsome]
      exact ⟨l, hfirst.trans hrun⟩

/-- There are at most as many tokens ahead as the bound says by which reading ends. -/
theorem length_tokens_le (s : Tokenizer) : s.tokens.length ≤ s.left := by
  induction s using next?_induction with
  | stop s hnone =>
      rw [tokens_of_next?_eq_none hnone]
      exact Nat.zero_le _
  | step s t s' hsome ih =>
      rw [tokens_of_next?_eq_some hsome]
      exact Nat.lt_of_le_of_lt ih (next?_left_lt hsome)

theorem kind_of_content_eq_nil (s : Tokenizer) :
    ∀ t ∈ s.tokens, t.content = [] → t.kind = .commentBody := by
  induction s using next?_induction with
  | stop s hnone =>
      rw [tokens_of_next?_eq_none hnone]
      intro t ht
      exact absurd ht List.not_mem_nil
  | step s first s' hsome ih =>
      rw [tokens_of_next?_eq_some hsome]
      intro t ht hempty
      rcases List.mem_cons.mp ht with rfl | ht
      · by_contra hkind
        exact next?_content_ne_nil hsome hkind hempty
      · exact ih t ht hempty

/-- Between two characters of a source, both tokenizers start to read what is ahead. -/
theorem ofSource_eq (language : Language) {d : Source} {u v : Text} (h : d.text = u ++ v) :
    ofSource language d (Text.size u) =
      start language d.path (d.location (Text.size u)) v := by
  have hsize : d.size = Text.size u + Text.size v := by
    rw [Source.size, h, size_append]
  rw [ofSource, Nat.min_eq_left (by omega), h, fromByte?, splitAtByte?_append]
  rfl

/-- From wherever it starts, a tokenizer gives out the text ahead, without a gap and each token where the
    source has it: not more than two for each character, and none that is empty but bodies of comments. -/
theorem ofSource_covers (language : Language) (d : Source) (u v : Text) (h : d.text = u ++ v) :
    d.CoversFrom (Text.size u) (ofSource language d (Text.size u)).tokens ∧
      contentOf (ofSource language d (Text.size u)).tokens = v ∧
      (ofSource language d (Text.size u)).tokens.length ≤ 2 * v.length ∧
      ∀ t ∈ (ofSource language d (Text.size u)).tokens, t.kind ≠ .commentBody → t.content ≠ [] := by
  rw [ofSource_eq language h]
  generalize hs : start language d.path (d.location (Text.size u)) v = s
  have hplace : s.place = d.location (Text.size u) := by rw [← hs, start]
  have hrest : s.rest = v := by rw [← hs, start]
  have hleft : s.left = 2 * v.length := by
    rw [← hs]
    exact Nat.add_zero _
  -- all of it is read off the run of the tokens
  obtain ⟨l, hrun⟩ := s.tokens_run
  rw [hplace, hrest] at hrun
  have hcontent : contentOf s.tokens = v := hrun.contentOf_eq
  have hspan := hrun.span_of_location h
  refine ⟨⟨?_, ?_, hrun.isChain, ?_, ?_, ?_⟩, hcontent, hleft ▸ s.length_tokens_le, ?_⟩
  · rw [hcontent, h, fromByte?, splitAtByte?_append]
    rfl
  · intro t ht
    cases hts : s.tokens with
    | nil =>
        rw [hts] at ht
        exact nomatch ht
    | cons first ts =>
        rw [hts] at hrun ht
        obtain rfl : first = t := Option.some.inj ht
        rw [hrun.head_span]
        refine Nat.min_eq_left ?_
        rw [Source.size, h, size_append]
        exact Nat.le_add_right _ _
  · intro before after hts
    rw [hts] at hrun
    obtain ⟨l', s', hbefore, hafter⟩ := hrun.append
    have hwhole := hbefore.whole
    rw [hafter.content, List.append_nil] at hwhole
    exact hwhole
  · intro t ht
    exact congrArg Span.start (hspan t ht)
  · intro t ht
    exact congrArg Span.length (hspan t ht)
  · intro t ht hkind hempty
    exact hkind (s.kind_of_content_eq_nil t ht hempty)

/-- A tokenizer that starts inside of a line break, and a comment that does not end. -/
theorem ofSource_covers_inBreak :
    (Source.anonymous "a\r\n@*b").text = ("a\r" : Text) ++ ("\n@*b" : Text) ∧
      (Source.anonymous "a\r\n@*b").CoversFrom 2
        (ofSource .csharp (Source.anonymous "a\r\n@*b") 2).tokens ∧
      contentOf (ofSource .csharp (Source.anonymous "a\r\n@*b") 2).tokens = "\n@*b" :=
  have hparts : (Source.anonymous "a\r\n@*b").text = ("a\r" : Text) ++ ("\n@*b" : Text) := by decide
  have hcovers := ofSource_covers .csharp (Source.anonymous "a\r\n@*b") "a\r" "\n@*b" hparts
  ⟨hparts, hcovers.1, hcovers.2.1⟩

end Tokenizer

end RazorLang
