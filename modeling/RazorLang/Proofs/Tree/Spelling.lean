import RazorLang.Generation.Element
import RazorLang.Proofs.Text.Bytes
import RazorLang.Proofs.Tree.Nodes
import RazorLang.Source.Document

/-!
# Spans spell what they stand for

Whatever is read from consecutive tokens of a source stands in the source where its span says: the text of
a node, a value of a directive, the value of an attribute and the code in it. Each of them has a span that
is computed in a way of its own; what they share is that their first token starts where its offset says
(`Source.HasTokens.text_eq`).
-/

namespace RazorLang

open RazorLang.Tree Text

/-- A text stands in a source at a span, which does not start or end inside of a `\r\n`. -/
structure Source.HasAt (d : Source) (t : Text) (span : Span) : Prop where
  path : span.path = d.path
  length : span.length = Text.size t
  text_eq : ∃ before after, d.text = before ++ t ++ after ∧ span.start.offset = Text.size before ∧
    ¬ PartsBreak before (t ++ after) ∧ ¬ PartsBreak (before ++ t) after

/-- Some tokens follow one another in the run of tokens that covers a source. -/
def Source.HasTokens (d : Source) (ts : List Token) : Prop :=
  ∃ before after l, Token.Run d.path .start d.text (before ++ ts ++ after) l []

namespace Source

variable {d : Source} {t : Token} {ts us : List Token} {u v w : Text}

/-- The bytes of a source at a span are the text that stands there. -/
theorem HasAt.slice {span : Span} (h : d.HasAt u span) :
    slice? span.start.offset span.stop d.text = some u := by
  obtain ⟨before, after, htext, hoffset, -⟩ := h.text_eq
  rw [Span.stop, hoffset, h.length, htext]
  exact slice?_append before u after

theorem HasTokens.of_append (h : d.HasTokens (us ++ ts)) : d.HasTokens us ∧ d.HasTokens ts := by
  obtain ⟨before, after, l, hrun⟩ := h
  refine ⟨⟨before, ts ++ after, l, ?_⟩, ⟨before ++ us, after, l, ?_⟩⟩
  · rw [← List.append_assoc, List.append_assoc before]
    exact hrun
  · rw [List.append_assoc before]
    exact hrun

/-- Tokens of a source spell a part of it, which starts where the first of them does, and neither starts nor
    ends inside of a `\r\n`. -/
theorem HasTokens.text_eq (h : d.HasTokens (t :: ts)) :
    t.span.path = d.path ∧ t.span.length = Text.size t.content ∧ ∃ before after,
      d.text = before ++ contentOf (t :: ts) ++ after ∧ t.span.start.offset = Text.size before ∧
        ¬ PartsBreak before (contentOf (t :: ts) ++ after) ∧
          ¬ PartsBreak (before ++ contentOf (t :: ts)) after := by
  obtain ⟨before, after, l, hrun⟩ := h
  obtain ⟨l', s', hrun', hafter⟩ := hrun.append
  obtain ⟨l₁, s₁, hbefore, hts⟩ := hrun'.append
  have hrest : s' = contentOf after := hafter.contentOf_eq.symm
  refine ⟨?_, ?_, contentOf before, contentOf after, ?_, ?_, ?_, ?_⟩
  · rw [hts.head_span]
  · rw [hts.head_span]
  · rw [← hrun.contentOf_eq, contentOf_append, contentOf_append]
  · rw [hts.head_span, hbefore.offset]
    exact Nat.zero_add _
  · rw [← hrest, ← hts.content]
    exact hbefore.whole
  · rw [← hrest, ← contentOf_append]
    exact hrun'.whole

/-- The cut between two tokens of a source is not inside of a `\r\n`. -/
theorem HasTokens.whole (h : d.HasTokens (ts ++ us)) : ¬ PartsBreak (contentOf ts) (contentOf us) := by
  obtain ⟨before, after, l, hrun⟩ := h
  obtain ⟨l', s', hrun', -⟩ := hrun.append
  obtain ⟨l₁, s₁, -, hboth⟩ := hrun'.append
  obtain ⟨l₂, s₂, hts, hus⟩ := hboth.append
  rintro ⟨hlast, hhead⟩
  refine hts.whole ⟨hlast, ?_⟩
  rw [hus.content, List.head?_append, hhead]
  rfl

/-- A text that some tokens spell stands behind what they spell before it. -/
theorem HasTokens.hasAt (h : d.HasTokens (t :: ts)) (hcontent : contentOf (t :: ts) = u ++ (v ++ w))
    (hstart : ¬ PartsBreak u (v ++ w)) (hstop : ¬ PartsBreak (u ++ v) w)
    {span : Span} (hpath : span.path = t.span.path) (hlength : span.length = Text.size v)
    (hoffset : span.start.offset = t.span.start.offset + Text.size u) : d.HasAt v span := by
  obtain ⟨hfirst, -, before, after, htext, hbefore, hwhole, hwhole'⟩ := h.text_eq
  rw [hcontent] at htext hwhole hwhole'
  refine ⟨hpath.trans hfirst, hlength, before ++ u, w ++ after, ?_, ?_, ?_, ?_⟩
  · rw [htext]
    simp only [List.append_assoc]
  · rw [hoffset, hbefore, size_append]
  · have := not_partsBreak_append hwhole hstart hwhole'
    rwa [List.append_assoc] at this
  · rw [← List.append_assoc u v w] at hwhole hwhole'
    have := not_partsBreak_append hwhole hstop hwhole'
    rwa [← List.append_assoc] at this

/-- All of what some tokens spell stands where the first of them does. -/
theorem HasTokens.hasAt_all (h : d.HasTokens (t :: ts)) {span : Span} (hpath : span.path = t.span.path)
    (hlength : span.length = Text.size (contentOf (t :: ts)))
    (hoffset : span.start.offset = t.span.start.offset) : d.HasAt (contentOf (t :: ts)) span :=
  h.hasAt (u := []) (w := []) (by simp) (not_partsBreak_nil_left _) (not_partsBreak_nil_right _) hpath
    hlength hoffset

/-- A token starts behind what the tokens between it and an earlier one spell. -/
theorem HasTokens.offset_eq {s : Token} (h : d.HasTokens (t :: us ++ s :: ts)) :
    s.span.start.offset = t.span.start.offset + Text.size (contentOf (t :: us)) := by
  obtain ⟨before, after, l, hrun⟩ := h
  obtain ⟨l', s', hrun', -⟩ := hrun.append
  obtain ⟨l₁, s₁, -, hboth⟩ := hrun'.append
  obtain ⟨l₂, s₂, hus, hts⟩ := hboth.append
  rw [hts.head_span, hus.head_span]
  exact hus.offset

/-- What some tokens spell stands at the span from the first to the last of them. -/
theorem HasTokens.hasAt_spanOf (h : d.HasTokens (t :: ts)) (place : Span) :
    d.HasAt (contentOf (t :: ts)) (spanOf ((t :: ts).map .token) place) := by
  obtain ⟨-, hlength, -⟩ := h.text_eq
  rcases List.eq_nil_or_concat ts with rfl | ⟨us, last, rfl⟩
  · refine h.hasAt_all rfl ?_ rfl
    show t.span.stop - t.span.start.offset = _
    rw [Span.stop, hlength, contentOf_cons, contentOf_nil, List.append_nil]
    omega
  · rw [List.concat_eq_append] at h ⊢
    have hsplit : d.HasTokens ((t :: us) ++ [last]) := h
    have hlast : d.HasTokens [last] := hsplit.of_append.2
    obtain ⟨-, hlastLength, -⟩ := hlast.text_eq
    have hoffset := h.offset_eq
    refine h.hasAt_all ?_ ?_ ?_
    all_goals
      rw [List.map_cons, List.map_append, spanOf, List.head?_cons, List.map_singleton,
        List.getLast?_cons, List.getLast?_append]
    · rfl
    · show last.span.stop - t.span.start.offset = _
      rw [Span.stop, hlastLength, hoffset, ← List.cons_append, contentOf_append, size_append,
        contentOf_cons last, contentOf_nil, List.append_nil]
      omega
    · rfl

/-- The tokens of some trees follow one another in the source. -/
def HasTrees (d : Source) (trees : List Tree) : Prop := d.HasTokens (tokensAll trees)

theorem HasTrees.of_append {trees more : List Tree} (h : d.HasTrees (trees ++ more)) :
    d.HasTrees trees ∧ d.HasTrees more := by
  unfold HasTrees at h
  rw [tokensAll_append] at h
  exact HasTokens.of_append h

theorem HasTrees.of_suffix {trees more : List Tree} (h : d.HasTrees trees) (hmore : more <:+ trees) :
    d.HasTrees more := by
  obtain ⟨before, rfl⟩ := hmore
  exact h.of_append.2

end Source

/-! ## Values of attributes -/

namespace AttributeValue

variable {d : Source} {v : AttributeValue}

/-- The code of a value stands in the source if the value does. -/
theorem hasAt_code (h : d.HasAt v.text v.span) : d.HasAt v.code.text v.code.span := by
  obtain ⟨hpath, hlength, before, after, htext, hoffset, hstart, hstop⟩ := h
  unfold code
  split
  · next rest hcode =>
      rw [hcode] at htext hstart hstop
      refine ⟨hpath, rfl, before ++ ['@'], after, ?_, ?_, ?_, ?_⟩
      · rw [htext]
        simp
      · rw [Location.advance_offset, hoffset, size_append]
      · exact not_partsBreak_append (u := ['@']) (v := rest) hstart (fun h => nomatch h.1) hstop
      · rw [List.append_assoc]
        exact hstop
  · exact ⟨hpath, hlength, before, after, htext, hoffset, hstart, hstop⟩

end AttributeValue

namespace Attribute

variable {d : Source} {trees behind : List Tree} {a : Attribute}

/-- A value in quotes stands behind its opening quote. -/
theorem hasAt_readQuoted {opener : Token} (h : d.HasTrees (.token opener :: trees)) :
    d.HasAt (readQuoted opener trees).1.text (readQuoted opener trees).1.span := by
  unfold Source.HasTrees at h
  rw [tokensAll_cons, tokens_token, List.singleton_append] at h
  unfold readQuoted
  rw [← List.takeWhile_append_dropWhile (p := (!isTokenOf opener.kind ·)) (l := trees),
    tokensAll_append] at h
  have hopener : d.HasTokens ([opener] ++ (tokensAll (trees.takeWhile (!isTokenOf opener.kind ·)) ++
      tokensAll (trees.dropWhile (!isTokenOf opener.kind ·)))) := h
  have hvalue : d.HasTokens ((opener :: tokensAll (trees.takeWhile (!isTokenOf opener.kind ·))) ++
      tokensAll (trees.dropWhile (!isTokenOf opener.kind ·))) := h
  have hstart := hopener.whole
  have hstop := hvalue.whole
  rw [contentOf_append, contentOf_cons, contentOf_nil, List.append_nil, contentOf_tokensAll] at hstart
  rw [contentOf_cons, contentOf_tokensAll] at hstop
  refine h.hasAt ?_ hstart hstop rfl rfl (Location.advance_offset _ _)
  rw [contentOf_cons, contentOf_append, contentOf_tokensAll]

/-- A value behind the sign that follows the name of an attribute stands in the source. -/
theorem hasAt_readAssigned (h : d.HasTrees trees) {v : AttributeValue}
    (hv : (readAssigned trees).1 = some v) : d.HasAt v.text v.span := by
  unfold readAssigned at hv
  split at hv
  · next t inner =>
      split at hv
      · rw [← Option.some.inj hv]
        exact hasAt_readQuoted h
      · split at hv
        · rw [← Option.some.inj hv]
          have hfirst : d.HasTokens [t] := by
            unfold Source.HasTrees at h
            rw [tokensAll_cons, tokens_token] at h
            exact h.of_append.1
          obtain ⟨-, hlength, -⟩ := hfirst.text_eq
          have hat : d.HasAt (contentOf [t]) t.span := hfirst.hasAt_all rfl (by simpa using hlength) rfl
          rwa [contentOf_cons, contentOf_nil, List.append_nil] at hat
        · exact nomatch hv
  · exact nomatch hv

theorem hasAt_readValue (h : d.HasTrees trees) {v : AttributeValue}
    (hv : (readValue trees).1 = some v) : d.HasAt v.text v.span := by
  unfold readValue at hv
  split at hv
  · next sign rest =>
      split at hv
      · exact hasAt_readAssigned (h.of_suffix (List.suffix_cons _ _)) hv
      · exact nomatch hv
  · exact nomatch hv

theorem readAssigned_suffix (trees : List Tree) : (readAssigned trees).2 <:+ trees := by
  unfold readAssigned
  split
  · next t inner =>
      split
      · exact ((List.drop_suffix _ _).trans (List.dropWhile_suffix _)).trans (List.suffix_cons _ _)
      · split
        · exact List.suffix_cons _ _
        · exact List.suffix_rfl
  · exact List.suffix_rfl

theorem readValue_suffix (trees : List Tree) : (readValue trees).2 <:+ trees := by
  unfold readValue
  split
  · next sign rest =>
      split
      · exact (readAssigned_suffix rest).trans (List.suffix_cons _ _)
      · exact List.suffix_rfl
  · exact List.suffix_rfl

theorem readName?_suffix {t : Tree} {name : Text} (h : readName? t trees = some (name, behind)) :
    behind <:+ trees := by
  unfold readName? at h
  split at h
  · exact nomatch h
  · split at h
    · obtain ⟨-, rfl⟩ := Prod.mk.inj (Option.some.inj h)
      exact List.suffix_rfl
    · split at h
      · split at h
        · split at h
          · obtain ⟨-, rfl⟩ := Prod.mk.inj (Option.some.inj h)
            exact List.suffix_cons _ _
          · exact nomatch h
        · exact nomatch h
      · exact nomatch h

/-- Each attribute that is read has its value read from some of the last trees. -/
theorem exists_of_mem_readAll (h : a ∈ readAll trees) :
    ∃ behind, behind <:+ trees ∧ a.value = (readValue behind).1 := by
  induction trees using readAll.induct with
  | case1 =>
      rw [readAll] at h
      exact absurd h List.not_mem_nil
  | case2 t rest hname ih =>
      rw [readAll_skip hname] at h
      obtain ⟨behind, hbehind, hvalue⟩ := ih h
      exact ⟨behind, hbehind.trans (List.suffix_cons t rest), hvalue⟩
  | case3 t rest name behind hname ih =>
      have hsuffix := (readName?_suffix hname).trans (List.suffix_cons t rest)
      rw [readAll_name hname] at h
      rcases List.mem_cons.mp h with rfl | h
      · exact ⟨behind, hsuffix, rfl⟩
      · obtain ⟨behind', hbehind', hvalue⟩ := ih h
        exact ⟨behind', (hbehind'.trans (readValue_suffix behind)).trans hsuffix, hvalue⟩

end Attribute

/-- The code of each attribute of a node stands in the source if the tokens of the node follow one
    another there. -/
theorem Tree.hasAt_attributes {d : Source} {t : Tree} (h : d.HasTrees t.children) {a : Attribute}
    (ha : a ∈ t.attributes) {v : AttributeValue} (hv : a.value = some v) :
    d.HasAt v.code.text v.code.span := by
  obtain ⟨behind, hbehind, hvalue⟩ := Attribute.exists_of_mem_readAll ha
  rw [hvalue] at hv
  exact AttributeValue.hasAt_code
    (Attribute.hasAt_readValue (h.of_suffix (hbehind.trans (List.drop_suffix _ _))) hv)

end RazorLang
