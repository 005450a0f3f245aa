import Mathlib.Data.List.Chain
import RazorLang.Proofs.Token.Boundary

/-!
# Runs of tokens

A `Token.Run` is a list of tokens that follow one another in a text: each starts where the one before it
ends, and no two of them share a line break. Runs are put together (`Run.trans`) and taken apart
(`Run.append`); what a run covers is the text that it took (`Run.content`), and it ends where reading that
text leads (`Run.place`).

Main statement: `Tokenizer.next?_run` — the next token of a tokenizer is a run of one token.
-/

namespace RazorLang

open Text

/-- Some tokens follow one another from a place in a text on, up to another place. -/
inductive Token.Run (path : Option Text) :
    Location → Text → List Token → Location → Text → Prop where
  | nil (l : Location) (s : Text) : Run path l s [] l s
  | cons {l l' : Location} {t : Token} {u s' : Text} {ts : List Token}
      (span : t.span = ⟨path, l, size t.content⟩) (whole : ¬ PartsBreak t.content u)
      (tail : Run path (l.advance t.content) u ts l' s') :
      Run path l (t.content ++ u) (t :: ts) l' s'

@[simp] theorem contentOf_nil : contentOf [] = [] := rfl

@[simp] theorem contentOf_cons (t : Token) (ts : List Token) :
    contentOf (t :: ts) = t.content ++ contentOf ts := rfl

@[simp] theorem contentOf_append (ts us : List Token) :
    contentOf (ts ++ us) = contentOf ts ++ contentOf us := List.flatMap_append

namespace Token.Run

variable {path : Option Text} {l l' l'' : Location} {s s' s'' : Text} {ts us : List Token}

/-- A run of one token. -/
theorem single {t : Token} {u : Text} (span : t.span = ⟨path, l, size t.content⟩)
    (whole : ¬ PartsBreak t.content u) :
    Run path l (t.content ++ u) [t] (l.advance t.content) u :=
  cons span whole (nil _ _)

theorem trans (h : Run path l s ts l' s') (h' : Run path l' s' us l'' s'') :
    Run path l s (ts ++ us) l'' s'' := by
  induction h with
  | nil l s => exact h'
  | cons span whole tail ih => exact cons span whole (ih h')

/-- A run of two lists of tokens is one of the first and then one of the second. -/
theorem append (h : Run path l s (ts ++ us) l'' s'') :
    ∃ l' s', Run path l s ts l' s' ∧ Run path l' s' us l'' s'' := by
  induction ts generalizing l s with
  | nil => exact ⟨l, s, nil l s, h⟩
  | cons t ts ih =>
      cases h with
      | cons span whole tail =>
          obtain ⟨l', s', hts, hus⟩ := ih tail
          exact ⟨l', s', cons span whole hts, hus⟩

/-- The text before a run is what its tokens cover and then the text behind it. -/
theorem content (h : Run path l s ts l' s') : s = contentOf ts ++ s' := by
  induction h with
  | nil l s => rfl
  | cons span whole tail ih => rw [contentOf_cons, List.append_assoc, ← ih]

/-- A run to the end of a text covers all of it. -/
theorem contentOf_eq (h : Run path l s ts l' []) : contentOf ts = s := by
  rw [h.content, List.append_nil]

/-- A run does not end inside of a line break. -/
theorem whole (h : Run path l s ts l' s') : ¬ PartsBreak (contentOf ts) s' := by
  induction h with
  | nil l s => exact not_partsBreak_nil_left s
  | @cons l l' t u s' ts span hwhole tail ih =>
      rw [contentOf_cons]
      rintro ⟨hlast, hhead⟩
      rw [List.getLast?_append] at hlast
      cases hts : (contentOf ts).getLast? with
      | some c =>
          rw [hts] at hlast
          exact ih ⟨by rw [hts]; exact hlast, hhead⟩
      | none =>
          -- the tokens behind the first are empty, so that the run ends where the first does
          rw [hts] at hlast
          have hu := tail.content
          rw [List.getLast?_eq_none_iff.mp hts, List.nil_append] at hu
          exact hwhole ⟨hlast, by rw [hu]; exact hhead⟩

/-- A run ends where reading what it covers leads. -/
theorem place (h : Run path l s ts l' s') : l' = l.advance (contentOf ts) := by
  induction h with
  | nil l s => rfl
  | @cons l l' t u s' ts span hwhole tail ih =>
      rw [ih, contentOf_cons]
      refine (Location.advance_append ?_ l).symm
      rintro ⟨hlast, hhead⟩
      refine hwhole ⟨hlast, ?_⟩
      rw [tail.content]
      rw [List.head?_append, hhead]
      rfl

theorem offset (h : Run path l s ts l' s') : l'.offset = l.offset + size (contentOf ts) := by
  rw [h.place, Location.advance_offset]

/-- The first token of a run starts where the run does. -/
theorem head_span {t : Token} (h : Run path l s (t :: ts) l' s') :
    t.span = ⟨path, l, size t.content⟩ := by
  cases h with
  | cons span => exact span

/-- No token of a run starts before the run does. -/
theorem offset_le {t : Token} (h : Run path l s ts l' s') (ht : t ∈ ts) :
    l.offset ≤ t.span.start.offset := by
  induction h with
  | nil l s => exact absurd ht List.not_mem_nil
  | cons span whole tail ih =>
      rcases List.mem_cons.mp ht with rfl | ht
      · rw [span]
      · refine Nat.le_trans ?_ (ih ht)
        rw [Location.advance_offset]
        exact Nat.le_add_right _ _

/-- No token of a run ends behind the end of the run. -/
theorem stop_le {t : Token} (h : Run path l s ts l' s') (ht : t ∈ ts) : t.span.stop ≤ l'.offset := by
  obtain ⟨before, after, rfl⟩ := List.append_of_mem ht
  obtain ⟨l₁, s₁, -, hrest⟩ := h.append
  rw [Span.stop, hrest.head_span, hrest.offset, contentOf_cons, size_append]
  exact Nat.add_le_add_left (Nat.le_add_right _ _) _

/-- Each token of a run starts where the one before it ends. -/
theorem isChain (h : Run path l s ts l' s') :
    ts.IsChain fun s t => t.span.start.offset = s.span.stop := by
  induction h with
  | nil l s => exact .nil
  | @cons l l' t u s' ts span whole tail ih =>
      refine List.isChain_cons.mpr ⟨fun next hnext => ?_, ih⟩
      cases ts with
      | nil => exact nomatch hnext
      | cons t' ts =>
          rw [← Option.some.inj hnext, tail.head_span, span]
          exact Location.advance_offset l t.content

/-- Of two tokens of a run, the first ends where the second starts or before that. -/
theorem pairwise (h : Run path l s ts l' s') :
    ts.Pairwise fun s t => s.span.stop ≤ t.span.start.offset := by
  induction h with
  | nil l s => exact .nil
  | @cons l l' t u s' ts span whole tail ih =>
      refine List.pairwise_cons.mpr ⟨?_, ih⟩
      intro next hnext
      have := tail.offset_le hnext
      rw [Location.advance_offset] at this
      rw [span]
      exact this

end Token.Run

namespace Tokenizer

theorem emit_run {s : Tokenizer} (kind : TokenKind) (flaw : Option Flaw) {content rest : Text}
    (mode : Mode) (hrest : s.rest = content ++ rest) (whole : ¬ PartsBreak content rest) :
    Token.Run s.path s.place s.rest [(s.emit kind flaw content rest mode).1]
      (s.place.advance content) rest := by
  rw [hrest]
  exact Token.Run.single (t := (s.emit kind flaw content rest mode).1) rfl whole

theorem nextBody_kind (s : Tokenizer) : s.nextBody.1.kind = .commentBody := by
  unfold nextBody
  split <;> rfl

/-- The body of a comment ends before a star or with the text. -/
theorem nextBody_run (s : Tokenizer) :
    Token.Run s.path s.place s.rest [s.nextBody.1] s.nextBody.2.place s.nextBody.2.rest := by
  unfold nextBody
  split
  · next n hn =>
      obtain ⟨behind, hbehind⟩ := CSharp.indexOf?_prefix hn
      refine emit_run _ _ .data (List.take_append_drop n s.rest).symm ?_
      rw [← hbehind]
      rintro ⟨-, hhead⟩
      exact nomatch hhead
  · exact emit_run _ _ .data (List.append_nil _).symm (not_partsBreak_nil_right _)

/-- The next token is a run of one token, up to where the tokenizer stands behind it. -/
theorem next?_run {s s' : Tokenizer} {t : Token} (h : s.next? = some (t, s')) :
    Token.Run s.path s.place s.rest [t] s'.place s'.rest ∧ s'.path = s.path := by
  unfold next? at h
  split at h
  · have hbody : s.nextBody = (t, s') := Option.some.inj h
    have hpath : s.nextBody.2.path = s.path := by
      unfold nextBody
      split <;> rfl
    have hrun := s.nextBody_run
    rw [hbody] at hrun hpath
    exact ⟨hrun, hpath⟩
  · split at h
    · exact nomatch h
    · next c rest hrest =>
        have hcut : s.rest = (c :: rest.take (cut s.language s.mode c rest).more) ++
            rest.drop (cut s.language s.mode c rest).more := by
          rw [hrest, List.cons_append, List.take_append_drop]
        obtain ⟨rfl, rfl⟩ := Prod.mk.inj (Option.some.inj h)
        exact ⟨emit_run _ _ .data hcut (isWhole_cut s.language s.mode c rest), rfl⟩

end Tokenizer

end RazorLang
