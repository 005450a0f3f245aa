import RazorLang.Editor.Formatting
import RazorLang.Proofs.Editor.Remapping

/-!
# Edits of markup

The HTML of a document has the offsets of the document, so an edit of the HTML is one of the document where
both of its ends are in markup. Main statement: `Formatting.htmlRange_settle` — what comes back of the edits
that a formatter answers keeps its order and its text, and covers in the document the bytes that it covers in
the HTML; each of these bytes is markup, or is in a token of something else that the edit encloses. An edit
with nothing but markup in and around it always comes back. Since what is between the ends is not looked at,
there may be tokens that are enclosed, and then the edit replaces code with what masks it
(`Formatting.htmlRange_settle_aroundCode`).

The route: a byte is in one token, whose node says which language it is in
(`ParsedDocument.IsRun.isMarkup_of_languageAt`), so a token of something else does not reach over an end of
the edit; and a token of markup is spelled the same on both sides (`ParsedDocument.IsRun.nonempty_link`), so
the ends are places of the document too.
-/

namespace RazorLang

open RazorLang.Tree Projection Text

/-- Each byte that a run covers is in one of its tokens. -/
theorem Token.Run.exists_contains {path : Option Text} {l l' : Location} {s s' : Text} {ts : List Token}
    {i : Nat} (h : Token.Run path l s ts l' s') (hstart : l.offset ≤ i) (hstop : i < l'.offset) :
    ∃ t ∈ ts, t.span.contains i = true := by
  induction h with
  | nil l s => exact absurd hstart (Nat.not_le_of_lt hstop)
  | @cons l l' t u s' ts span whole tail ih =>
      by_cases hi : i < l.offset + Text.size t.content
      · refine ⟨t, List.mem_cons_self, Span.contains_eq_true.mpr ?_⟩
        rw [Span.stop, span]
        exact ⟨hstart, hi⟩
      · rw [Location.advance_offset] at ih
        obtain ⟨t', ht', hcontains⟩ := ih (Nat.le_of_not_lt hi) hstop
        exact ⟨t', List.mem_cons_of_mem t ht', hcontains⟩

namespace LanguageKind

variable {k : NodeKind}

theorem ofNode_eq_html : ofNode k = .html ↔ k.isMarkup = true := by
  constructor
  · intro h
    by_contra hnot
    unfold ofNode at h
    rw [if_neg hnot] at h
    split at h <;> exact nomatch h
  · exact fun h => if_pos h

/-- The author's own C# is no markup. -/
theorem isAuthored_of_isMarkup (h : k.isMarkup = true) : isAuthored k = false := by
  cases k with
  | statementCode => exact nomatch h
  | expressionCode => exact nomatch h
  | _ => rfl

end LanguageKind

namespace ParsedDocument

variable {p : ParsedDocument} {e f : NodeKind × Token} {l : Location} {start stop i : Nat}

/-- The tokens of a document follow one another from the start of its source to the end. -/
def IsRun (p : ParsedDocument) : Prop :=
  ∃ l, Token.Run p.source.path .start p.source.text p.root.tokens l []

/-- A byte between two offsets is in a token that is not markup, and the token is between them too. -/
def IsEnclosed (p : ParsedDocument) (start stop i : Nat) : Prop :=
  ∃ e ∈ ownedTokens p.root, e.1.isMarkup = false ∧ e.2.span.contains i = true ∧
    start < e.2.span.start.offset ∧ e.2.span.stop ≤ stop

/-! ## The token that a byte is in -/

theorem mem_tokens_of_mem_ownedTokens (he : e ∈ ownedTokens p.root) : e.2 ∈ p.root.tokens := by
  rw [← map_snd_owned .document p.root]
  exact List.mem_map_of_mem he

theorem IsRun.span_length (h : p.IsRun) (he : e ∈ ownedTokens p.root) :
    e.2.span.length = Text.size e.2.content := by
  obtain ⟨l, hrun⟩ := h
  obtain ⟨before, after, htokens⟩ := List.append_of_mem (mem_tokens_of_mem_ownedTokens he)
  rw [(hrun.span_eq htokens).1]

theorem IsRun.pairwise (h : p.IsRun) :
    (ownedTokens p.root).Pairwise fun e f => e.2.span.stop ≤ f.2.span.start.offset := by
  obtain ⟨l, hrun⟩ := h
  have hpairwise := hrun.pairwise
  rw [← map_snd_owned .document p.root] at hpairwise
  exact List.pairwise_map.mp hpairwise

/-- The run of a document ends at the end of its source. -/
theorem IsRun.exists_run (h : p.IsRun) : ∃ l,
    Token.Run p.source.path .start p.source.text p.root.tokens l [] ∧ l.offset = p.source.size := by
  obtain ⟨l, hrun⟩ := h
  refine ⟨l, hrun, ?_⟩
  rw [hrun.offset, hrun.contentOf_eq]
  exact Nat.zero_add _

theorem IsRun.stop_le (h : p.IsRun) (he : e ∈ ownedTokens p.root) : e.2.span.stop ≤ p.source.size := by
  obtain ⟨l, hrun, hoffset⟩ := h.exists_run
  rw [← hoffset]
  exact hrun.stop_le (mem_tokens_of_mem_ownedTokens he)

theorem IsRun.exists_contains (h : p.IsRun) (hi : i < p.source.size) :
    ∃ e ∈ ownedTokens p.root, e.2.span.contains i = true := by
  obtain ⟨l, hrun, hoffset⟩ := h.exists_run
  obtain ⟨t, ht, hcontains⟩ := hrun.exists_contains (Nat.zero_le i) (hoffset ▸ hi)
  rw [← map_snd_owned .document p.root] at ht
  obtain ⟨e, he, rfl⟩ := List.mem_map.mp ht
  exact ⟨e, he, hcontains⟩

/-- No two tokens contain the same byte. -/
theorem IsRun.eq_of_contains (h : p.IsRun) (he : e ∈ ownedTokens p.root) (hf : f ∈ ownedTokens p.root)
    (hei : e.2.span.contains i = true) (hfi : f.2.span.contains i = true) : e = f := by
  refine List.Pairwise.forall_of_forall_of_flip
    (R := fun e f : NodeKind × Token => e.2.span.contains i = true → f.2.span.contains i = true → e = f)
    (fun _ _ _ _ => rfl) (h.pairwise.imp ?_) (h.pairwise.imp ?_) he hf hei hfi
  · intro e f hle he hf
    have := (Span.contains_eq_true.mp he).2
    have := (Span.contains_eq_true.mp hf).1
    omega
  · intro e f hle hf he
    have := (Span.contains_eq_true.mp he).2
    have := (Span.contains_eq_true.mp hf).1
    omega

/-- A token that contains a byte has characters. -/
theorem IsRun.mem_written (h : p.IsRun) (he : e ∈ ownedTokens p.root)
    (hcontains : e.2.span.contains i = true) : e ∈ p.root.written := by
  have hne : e.2.content ≠ [] := by
    intro hnil
    obtain ⟨hle, hlt⟩ := Span.contains_eq_true.mp hcontains
    rw [Span.stop, h.span_length he, hnil] at hlt
    exact absurd hle (Nat.not_le_of_lt hlt)
  exact List.mem_filter.mpr ⟨he, by simpa using hne⟩

theorem IsRun.of_mem_written (h : p.IsRun) (he : e ∈ p.root.written) :
    e ∈ ownedTokens p.root ∧ e.2.span.stop = e.2.span.start.offset + Text.size e.2.content ∧
      0 < Text.size e.2.content := by
  obtain ⟨he, hne⟩ := List.mem_filter.mp he
  refine ⟨he, ?_, size_pos_of_ne_nil (by simpa using hne)⟩
  rw [Span.stop, h.span_length he]

theorem IsRun.ownerAt?_eq (h : p.IsRun) (he : e ∈ ownedTokens p.root)
    (hcontains : e.2.span.contains i = true) : p.root.ownerAt? i = some e.1 := by
  rw [ownerAt?]
  cases hf : p.root.written.find? fun f => f.2.span.contains i with
  | none => exact absurd hcontains (List.find?_eq_none.mp hf e (h.mem_written he hcontains))
  | some f =>
      have hmem := List.mem_of_mem_filter (List.mem_of_find?_eq_some hf)
      rw [h.eq_of_contains he hmem hcontains (by simpa using List.find?_some hf)]
      rfl

/-- Where the language is HTML, the token that is there is markup. -/
theorem IsRun.isMarkup_of_languageAt (h : p.IsRun) (hlang : p.root.languageAt i = .html)
    (he : e ∈ ownedTokens p.root) (hcontains : e.2.span.contains i = true) : e.1.isMarkup = true := by
  rw [languageAt, h.ownerAt?_eq he hcontains] at hlang
  cases hbefore : p.root.ownerBefore? i with
  | none =>
      rw [hbefore] at hlang
      exact LanguageKind.ofNode_eq_html.mp hlang
  | some before =>
      rw [hbefore] at hlang
      dsimp only at hlang
      split at hlang
      · exact nomatch hlang
      · exact LanguageKind.ofNode_eq_html.mp hlang

/-- The language is HTML between two bytes of markup, and where the source ends with one or starts with
    one. -/
theorem IsRun.languageAt_eq_html (h : p.IsRun) (hbefore : ∀ j, j + 1 = i → InMarkup p.root j)
    (hat : i < p.source.size → InMarkup p.root i) : p.root.languageAt i = .html := by
  have hownerBefore {k : NodeKind} (hk : p.root.ownerBefore? i = some k) : k.isMarkup = true := by
    obtain ⟨f, hf, rfl⟩ := Option.map_eq_some_iff.mp hk
    have hstop : f.2.span.stop = i := by simpa using List.find?_some hf
    obtain ⟨hmem, hlength, hpos⟩ :=
      h.of_mem_written (List.mem_reverse.mp (List.mem_of_find?_eq_some hf))
    -- its last byte is the one in front of the offset
    have hlast : f.2.span.contains (i - 1) = true := Span.contains_eq_true.mpr (by omega)
    obtain ⟨e, he, hmarkup, hcontains⟩ := hbefore (i - 1) (by omega)
    rw [h.eq_of_contains hmem he hlast hcontains]
    exact hmarkup
  have hownerAt {k : NodeKind} (hk : p.root.ownerAt? i = some k) : k.isMarkup = true := by
    obtain ⟨f, hf, rfl⟩ := Option.map_eq_some_iff.mp hk
    have hmem := List.mem_of_mem_filter (List.mem_of_find?_eq_some hf)
    have hcontains : f.2.span.contains i = true := by simpa using List.find?_some hf
    obtain ⟨e, he, hmarkup, hcontains'⟩ :=
      hat (Nat.lt_of_lt_of_le (Span.contains_eq_true.mp hcontains).2 (h.stop_le hmem))
    rw [h.eq_of_contains hmem he hcontains hcontains']
    exact hmarkup
  rw [languageAt]
  cases hb : p.root.ownerBefore? i with
  | none =>
      cases ha : p.root.ownerAt? i with
      | none => rfl
      | some k => exact LanguageKind.ofNode_eq_html.mpr (hownerAt ha)
  | some before =>
      have hmarkup := hownerBefore hb
      show (if LanguageKind.isAuthored before then _ else _) = _
      rw [LanguageKind.isAuthored_of_isMarkup hmarkup]
      cases ha : p.root.ownerAt? i with
      | none => exact LanguageKind.ofNode_eq_html.mpr hmarkup
      | some k => exact LanguageKind.ofNode_eq_html.mpr (hownerAt ha)

/-- Between two offsets at which the language is HTML, there is markup, and tokens of something else that
    are between them as a whole. -/
theorem IsRun.inMarkup_or_isEnclosed (h : p.IsRun) (hstart : p.root.languageAt start = .html)
    (hstop : p.root.languageAt stop = .html) (hsize : stop ≤ p.source.size) (hi : start ≤ i)
    (hi' : i < stop) : InMarkup p.root i ∨ p.IsEnclosed start stop i := by
  obtain ⟨e, he, hcontains⟩ := h.exists_contains (Nat.lt_of_lt_of_le hi' hsize)
  cases hmarkup : e.1.isMarkup with
  | true => exact Or.inl ⟨e, he, hmarkup, hcontains⟩
  | false =>
      obtain ⟨hle, hlt⟩ := Span.contains_eq_true.mp hcontains
      -- it would be markup if it contained one of the ends
      have hnot {j : Nat} (hj : p.root.languageAt j = .html) : e.2.span.contains j ≠ true := by
        intro hcontains'
        rw [h.isMarkup_of_languageAt hj he hcontains'] at hmarkup
        exact nomatch hmarkup
      refine Or.inr ⟨e, he, hmarkup, hcontains, ?_, ?_⟩
      · by_contra hge
        exact hnot hstart (Span.contains_eq_true.mpr ⟨Nat.le_of_not_lt hge, Nat.lt_of_le_of_lt hi hlt⟩)
      · by_contra hgt
        refine hnot hstop (Span.contains_eq_true.mpr ⟨?_, Nat.lt_of_not_le hgt⟩)
        exact Nat.le_trans hle (Nat.le_of_lt hi')

/-! ## The same places on both sides -/

theorem size_mask (t : Text) : Text.size (mask t) = Text.size t := by
  rw [← length_bytes, bytes_mask, List.length_map, length_bytes]

theorem size_project (es : List (NodeKind × Token)) :
    Text.size (es.flatMap fun e => project e.1 e.2) = Text.size (contentOf (es.map Prod.snd)) := by
  induction es with
  | nil => rfl
  | cons e es ih =>
      have htoken : Text.size (project e.1 e.2) = Text.size e.2.content := by
        rw [project]
        split
        · rfl
        · exact size_mask e.2.content
      rw [List.flatMap_cons, size_append, ih, htoken, List.map_cons, contentOf_cons, size_append]

/-- A token of markup is spelled the same in a source and in its HTML. -/
theorem IsRun.nonempty_link (h : p.IsRun) (he : e ∈ ownedTokens p.root) (hmarkup : e.1.isMarkup = true) :
    Nonempty (Mapping.Link p.source.text p.toHtml.code ⟨e.2.span, e.2.span⟩) := by
  obtain ⟨l, hrun⟩ := h
  obtain ⟨left, right, howned⟩ := List.append_of_mem he
  have htokens : p.root.tokens = left.map Prod.snd ++ e.2 :: right.map Prod.snd := by
    rw [← map_snd_owned .document p.root, show p.root.owned .document = _ from howned, List.map_append,
      List.map_cons]
  obtain ⟨hspan, hoffset⟩ := hrun.span_eq htokens
  have htokens' : p.source.HasTokens [e.2] :=
    ⟨left.map Prod.snd, right.map Prod.snd, l, by simpa [htokens] using hrun⟩
  obtain ⟨-, hlength, before, after, htext, hbefore, hstart, hstop⟩ := htokens'.text_eq
  rw [contentOf_cons, contentOf_nil, List.append_nil] at htext hstart hstop
  refine ⟨{
    text := e.2.content, before, after
    front := left.flatMap fun e => project e.1 e.2
    back := right.flatMap fun e => project e.1 e.2
    source_eq := htext.trans (List.append_assoc _ _ _)
    code_eq := ?_
    source_start := hbefore
    source_length := hlength
    generated_start := hoffset.trans (size_project left).symm
    generated_length := hlength
    start_whole := hstart
    stop_whole := hstop }⟩
  show ((ownedTokens p.root).flatMap fun e => project e.1 e.2) = _
  have htoken : project e.1 e.2 = e.2.content := if_pos hmarkup
  rw [howned, List.flatMap_append, List.flatMap_cons, htoken]

theorem IsRun.size_toHtml (h : p.IsRun) : Text.size p.toHtml.code = p.source.size := by
  obtain ⟨l, hrun⟩ := h
  rw [Source.size, ← hrun.contentOf_eq, ← map_snd_owned .document p.root]
  exact size_project (ownedTokens p.root)

/-- A place of the HTML at which the language is HTML is a place of the source. -/
theorem IsRun.isPlace (h : p.IsRun) (hlang : p.root.languageAt i = .html)
    (hplace : (Buffer.mk p.toHtml.code).IsPlace i) : (Buffer.mk p.source.text).IsPlace i := by
  have hle : i ≤ p.source.size := by
    rw [← h.size_toHtml]
    exact hplace.le_size
  obtain ⟨u, v, hcode, rfl, hwhole⟩ := hplace
  by_cases hlt : Text.size u < p.source.size
  · obtain ⟨e, he, hcontains⟩ := h.exists_contains hlt
    obtain ⟨x⟩ := h.nonempty_link he (h.isMarkup_of_languageAt hlang he hcontains)
    have htouches : e.2.span.touches (Text.size u) = true := by
      obtain ⟨hle, hlt⟩ := Span.contains_eq_true.mp hcontains
      exact Span.touches_eq_true.mpr ⟨hle, Nat.le_of_lt hlt⟩
    obtain ⟨head, tail, -, rfl, hsource⟩ := x.exists_parts hcode hwhole htouches
    rw [size_append, ← x.source_start] at hsource
    rw [size_append, ← x.generated_start]
    exact hsource
  · refine ⟨p.source.text, [], (List.append_nil _).symm, ?_, not_partsBreak_nil_right _⟩
    exact Nat.le_antisymm (Nat.le_of_not_lt hlt) hle

/-- The document of a compilation is that of its request, and the HTML is made of it. -/
theorem isRun_compileWhile {e : Engine} {mayGoOn : Engine.Phase → Bool} {r : Request}
    {c : Compilation} (h : e.compileWhile mayGoOn r = .ok c) :
    c.document.IsRun ∧ c.document.source.text = c.buffer.text ∧ c.html = c.document.toHtml := by
  obtain ⟨-, -, hrequest, hdocument, hhtml⟩ := Engine.compileWhile_eq_ok h
  have hsource : c.document.source = r.source := by
    rw [hdocument]
    rfl
  refine ⟨?_, ?_, ?_⟩
  · obtain ⟨⟨l, hrun⟩, -⟩ := parse_run r.fileKind r.source
    refine ⟨l, ?_⟩
    rw [hsource, ← map_snd_marks, marks_compileWhile h, map_snd_marks]
    exact hrun
  · rw [hsource, Compilation.buffer, hrequest]
  · rw [hhtml, hdocument]

end ParsedDocument

namespace Formatting

variable {e : Engine} {mayGoOn : Engine.Phase → Bool} {r : Request} {c : Compilation} {given moved : Edit}

/-- What comes back of an edit of the HTML: an edit of the document with the same text for the same bytes,
    of which each is markup, or is in a token of something else that the edit encloses. -/
structure IsMarkupEdit (c : Compilation) (given moved : Edit) : Prop where
  text : moved.text = given.text
  replaced : ∃ start stop, c.htmlProjection.buffer.span? given.range = some (start, stop) ∧
    c.buffer.span? moved.range = some (start, stop) ∧
    ∀ i, start ≤ i → i < stop → InMarkup c.document.root i ∨ c.document.IsEnclosed start stop i

/-- There is nothing but markup in an edit of the HTML, and in front of it and behind it. -/
def IsInMarkup (c : Compilation) (given : Edit) : Prop :=
  ∃ start stop, c.htmlProjection.buffer.span? given.range = some (start, stop) ∧
    ∀ i < c.buffer.size, start ≤ i + 1 → i ≤ stop → InMarkup c.document.root i

/-- A range of the HTML spans no more than the document has. -/
theorem stop_le_size (h : e.compileWhile mayGoOn r = .ok c) {range : Range} {start stop : Nat}
    (hspan : c.htmlProjection.buffer.span? range = some (start, stop)) :
    stop ≤ c.document.source.size := by
  obtain ⟨hrun, -, hhtml⟩ := ParsedDocument.isRun_compileWhile h
  obtain ⟨-, hplace, -⟩ := Buffer.isPlace_of_span? hspan
  rw [Compilation.htmlProjection, Projection.buffer, hhtml] at hplace
  rw [← hrun.size_toHtml]
  exact hplace.le_size

/-- Where the language is HTML at both ends of a range of the HTML, the document has that range. -/
theorem exists_range? (h : e.compileWhile mayGoOn r = .ok c) {range : Range} {start stop : Nat}
    (hspan : c.htmlProjection.buffer.span? range = some (start, stop))
    (hstart : c.document.root.languageAt start = .html) (hstop : c.document.root.languageAt stop = .html) :
    ∃ moved, c.buffer.range? start stop = some moved ∧ c.buffer.span? moved = some (start, stop) := by
  obtain ⟨hrun, htext, hhtml⟩ := ParsedDocument.isRun_compileWhile h
  obtain ⟨hi, hj, hle⟩ := Buffer.isPlace_of_span? hspan
  rw [Compilation.htmlProjection, Projection.buffer, hhtml] at hi hj
  have hi := hrun.isPlace hstart hi
  have hj := hrun.isPlace hstop hj
  rw [htext] at hi hj
  exact Buffer.IsPlace.exists_range? hi hj hle

theorem isMarkupEdit_of_markupEdit? (h : e.compileWhile mayGoOn r = .ok c)
    (hmoved : markupEdit? c given = some moved) : IsMarkupEdit c given moved := by
  obtain ⟨⟨start, stop⟩, hspan, hmoved⟩ := Option.bind_eq_some_iff.mp hmoved
  obtain ⟨range, hrange, hmoved⟩ := Option.bind_eq_some_iff.mp hmoved
  split at hmoved
  · next hmarkup =>
      obtain rfl := Option.some.inj hmoved
      obtain ⟨hstart, hstop⟩ := Bool.and_eq_true_iff.mp hmarkup
      have hstart := beq_iff_eq.mp hstart
      have hstop := beq_iff_eq.mp hstop
      obtain ⟨range', hrange', hspan'⟩ := exists_range? h hspan hstart hstop
      obtain rfl : range = range' := Option.some.inj (hrange.symm.trans hrange')
      obtain ⟨hrun, -⟩ := ParsedDocument.isRun_compileWhile h
      exact ⟨rfl, start, stop, hspan, hspan', fun i hi hi' =>
        hrun.inMarkup_or_isEnclosed hstart hstop (stop_le_size h hspan) hi hi'⟩
  · exact nomatch hmoved

/-- An edit with nothing but markup in and around it is not left out. -/
theorem markupEdit?_ne_none (h : e.compileWhile mayGoOn r = .ok c) (hgiven : IsInMarkup c given) :
    markupEdit? c given ≠ none := by
  obtain ⟨start, stop, hspan, hmarkup⟩ := hgiven
  obtain ⟨hrun, htext, -⟩ := ParsedDocument.isRun_compileWhile h
  obtain ⟨-, -, hle⟩ := Buffer.isPlace_of_span? hspan
  rw [Buffer.size, ← htext] at hmarkup
  have hlang {i : Nat} (hi : start ≤ i) (hi' : i ≤ stop) : c.document.root.languageAt i = .html := by
    refine hrun.languageAt_eq_html ?_ ?_
    · rintro j rfl
      exact hmarkup j (Nat.le_trans hi' (stop_le_size h hspan)) hi (Nat.le_of_succ_le hi')
    · intro hlt
      exact hmarkup i hlt (Nat.le_succ_of_le hi) hi'
  have hstart := hlang (Nat.le_refl start) hle
  have hstop := hlang hle (Nat.le_refl stop)
  obtain ⟨range, hrange, -⟩ := exists_range? h hspan hstart hstop
  have hends : isMarkup c start stop = true :=
    Bool.and_eq_true_iff.mpr ⟨beq_iff_eq.mpr hstart, beq_iff_eq.mpr hstop⟩
  rw [markupEdit?, hspan]
  show (c.buffer.range? start stop).bind _ ≠ none
  rw [hrange]
  show (if isMarkup c start stop then some _ else none) ≠ none
  rw [if_pos hends]
  exact Option.some_ne_none _

/-- What comes back of the edits of the HTML that a formatter answers are edits of the document, some of
    those and in their order, and all that have nothing but markup in and around them. Each covers the bytes
    that it covers in the HTML, and these are markup unless they are in a token that the edit encloses. -/
theorem htmlRange_settle (h : e.compileWhile mayGoOn r = .ok c) (range : Range)
    (formatter : Range → Option (List Edit)) :
    ∃ kept, kept.Sublist (((htmlRange c range).question?.bind formatter).getD []) ∧
      List.Forall₂ (IsMarkupEdit c) kept ((htmlRange c range).settle formatter) ∧
      ∀ given ∈ ((htmlRange c range).question?.bind formatter).getD [], IsInMarkup c given →
        given ∈ kept := by
  cases hquestion : (htmlRange c range) with
  | settled outcome =>
      have hnone : outcome = [] := by
        rw [htmlRange] at hquestion
        split at hquestion
        · exact (Consultation.settled.inj hquestion).symm
        · exact nomatch hquestion
      rw [hnone]
      exact ⟨[], List.Sublist.slnil, List.Forall₂.nil, List.forall_mem_nil _⟩
  | asks question conclude =>
      have hconclude : conclude = fun answer => (answer.getD []).filterMap (markupEdit? c) := by
        rw [htmlRange] at hquestion
        split at hquestion
        · exact nomatch hquestion
        · exact (Consultation.asks.inj hquestion).2.symm
      obtain ⟨kept, hsublist, hmoved, hall⟩ :=
        exists_sublist_filterMap (markupEdit? c) ((formatter question).getD [])
      refine ⟨kept, hsublist, ?_, ?_⟩
      · rw [hconclude]
        exact hmoved.imp fun _ _ => isMarkupEdit_of_markupEdit? h
      · intro given hgiven hmarkup
        exact hall given hgiven (markupEdit?_ne_none h hmarkup)

/-- The name of an element is replaced. -/
theorem htmlRange_settle_name :
    ∃ c, Engine.bare.compileWhile (fun _ => true) ⟨.anonymous "<p>@x</p>", .legacy, []⟩ = .ok c ∧
      (htmlRange c ⟨⟨0, 0⟩, ⟨0, 9⟩⟩).settle (fun _ => some [⟨⟨⟨0, 1⟩, ⟨0, 2⟩⟩, "b".toList⟩]) =
        [⟨⟨⟨0, 1⟩, ⟨0, 2⟩⟩, "b".toList⟩] ∧
      ∃ kept, kept.Sublist (((htmlRange c ⟨⟨0, 0⟩, ⟨0, 9⟩⟩).question?.bind
          fun _ => some [⟨⟨⟨0, 1⟩, ⟨0, 2⟩⟩, "b".toList⟩]).getD []) ∧
        List.Forall₂ (IsMarkupEdit c) kept ((htmlRange c ⟨⟨0, 0⟩, ⟨0, 9⟩⟩).settle
          fun _ => some [⟨⟨⟨0, 1⟩, ⟨0, 2⟩⟩, "b".toList⟩]) ∧
        ∀ given ∈ ((htmlRange c ⟨⟨0, 0⟩, ⟨0, 9⟩⟩).question?.bind
          fun _ => some [⟨⟨⟨0, 1⟩, ⟨0, 2⟩⟩, "b".toList⟩]).getD [], IsInMarkup c given → given ∈ kept := by
  have hmoved : (Engine.bare.compileWhile (fun _ => true)
      ⟨.anonymous "<p>@x</p>", .legacy, []⟩).toOption.map (fun c => (htmlRange c ⟨⟨0, 0⟩, ⟨0, 9⟩⟩).settle
        fun _ => some [⟨⟨⟨0, 1⟩, ⟨0, 2⟩⟩, "b".toList⟩]) =
      some [⟨⟨⟨0, 1⟩, ⟨0, 2⟩⟩, "b".toList⟩] := by
    decide +kernel
  obtain ⟨c, hc, hmoved⟩ := Engine.exists_ok_of_map_toOption hmoved
  exact ⟨c, hc, hmoved, htmlRange_settle hc _ _⟩

/-- An edit with both ends in markup comes back although it encloses code, and replaces that. -/
theorem htmlRange_settle_aroundCode :
    ∃ c, Engine.bare.compileWhile (fun _ => true) ⟨.anonymous "<p>@x</p>", .legacy, []⟩ = .ok c ∧
      (htmlRange c ⟨⟨0, 0⟩, ⟨0, 9⟩⟩).settle (fun _ => some [⟨⟨⟨0, 0⟩, ⟨0, 9⟩⟩, "<P>~~</P>".toList⟩]) =
        [⟨⟨⟨0, 0⟩, ⟨0, 9⟩⟩, "<P>~~</P>".toList⟩] ∧
      c.buffer.span? ⟨⟨0, 0⟩, ⟨0, 9⟩⟩ = some (0, 9) ∧ ¬ InMarkup c.document.root 4 := by
  have hfacts : (Engine.bare.compileWhile (fun _ => true)
      ⟨.anonymous "<p>@x</p>", .legacy, []⟩).toOption.map (fun c =>
        ((htmlRange c ⟨⟨0, 0⟩, ⟨0, 9⟩⟩).settle fun _ => some [⟨⟨⟨0, 0⟩, ⟨0, 9⟩⟩, "<P>~~</P>".toList⟩],
          c.buffer.span? ⟨⟨0, 0⟩, ⟨0, 9⟩⟩, decide (InMarkup c.document.root 4))) =
      some ([⟨⟨⟨0, 0⟩, ⟨0, 9⟩⟩, "<P>~~</P>".toList⟩], some (0, 9), false) := by
    decide +kernel
  obtain ⟨c, hc, hfacts⟩ := Engine.exists_ok_of_map_toOption hfacts
  obtain ⟨hmoved, hfacts⟩ := Prod.mk.inj hfacts
  obtain ⟨hspan, hcode⟩ := Prod.mk.inj hfacts
  exact ⟨c, hc, hmoved, hspan, of_decide_eq_false hcode⟩

end Formatting

end RazorLang
