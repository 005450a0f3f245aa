import RazorLang.Proofs.Editor.Buffer
import RazorLang.Proofs.Editor.Projection

/-!
# Edits that are moved back

An edit of the generated C# is moved to the source by moving the two ends of its range. Main statement:
`Engine.sourceEdits_replace` — what is kept keeps its order and its new text, and if both ends are on one
mapping, the edit replaces in the source just the text that it replaces in the code. The ends may also be on
two mappings, with code between them that comes from nowhere in the source; then the texts differ
(`Engine.sourceEdits_across`).

The route: around a mapping, source and code spell the same text (`Mapping.Link`), so a place of the code
that the mapping touches is moved to a place of the source (`Mapping.Link.exists_parts`), and what is between
two of them is the same on both sides.
-/

namespace RazorLang

open Text

/-- What is left of a list after leaving out, each with what has become of it. -/
theorem exists_sublist_filterMap {α β : Type} (f : α → Option β) (l : List α) :
    ∃ kept, kept.Sublist l ∧ List.Forall₂ (fun a b => f a = some b) kept (l.filterMap f) ∧
      ∀ a ∈ l, f a ≠ none → a ∈ kept := by
  induction l with
  | nil => exact ⟨[], List.Sublist.slnil, List.Forall₂.nil, nofun⟩
  | cons a l ih =>
      obtain ⟨kept, hsublist, hrel, hall⟩ := ih
      cases hfa : f a with
      | none =>
          refine ⟨kept, hsublist.cons a, ?_, ?_⟩
          · rw [List.filterMap_cons_none hfa]
            exact hrel
          · intro a' ha' hne
            rcases List.mem_cons.mp ha' with rfl | ha'
            · exact absurd hfa hne
            · exact hall a' ha' hne
      | some b =>
          refine ⟨a :: kept, hsublist.cons_cons a, ?_, ?_⟩
          · rw [List.filterMap_cons_some hfa]
            exact List.Forall₂.cons hfa hrel
          · intro a' ha' hne
            rcases List.mem_cons.mp ha' with rfl | ha'
            · exact List.mem_cons_self
            · exact List.mem_cons_of_mem a (hall a' ha' hne)

namespace Mapping

/-- The texts around a mapping: between what comes before and after them, source and code spell the same text,
    and in the source no `\r\n` is parted around it. -/
structure Link (source code : Text) (m : Mapping) where
  text : Text
  before : Text
  after : Text
  front : Text
  back : Text
  source_eq : source = before ++ (text ++ after)
  code_eq : code = front ++ (text ++ back)
  source_start : m.source.start.offset = Text.size before
  source_length : m.source.length = Text.size text
  generated_start : m.generated.start.offset = Text.size front
  generated_length : m.generated.length = Text.size text
  start_whole : ¬ PartsBreak before (text ++ after)
  stop_whole : ¬ PartsBreak (before ++ text) after

variable {source code u v : Text} {m n : Mapping} {ms : List Mapping} {i j : Nat}

/-- A place of the code that a mapping touches parts the text of the mapping, and what is as far in that text
    in the source is a place too. -/
theorem Link.exists_parts (x : Link source code m) (hcode : code = u ++ v) (hwhole : ¬ PartsBreak u v)
    (htouches : m.generated.touches (Text.size u) = true) :
    ∃ head tail, x.text = head ++ tail ∧ u = x.front ++ head ∧
      (Buffer.mk source).IsPlace (Text.size (x.before ++ head)) := by
  obtain ⟨hstart, hstop⟩ := Span.touches_eq_true.mp htouches
  rw [Span.stop, x.generated_start, x.generated_length] at hstop
  rw [x.generated_start] at hstart
  obtain ⟨head, rfl, hrest⟩ := exists_between_of_size_le (x.code_eq.symm.trans hcode) hstart
  rw [size_append] at hstop
  obtain ⟨tail, htext, rfl⟩ := exists_between_of_size_le hrest.symm (by omega)
  have hsource := x.source_eq
  have hstartWhole := x.start_whole
  have hstopWhole := x.stop_whole
  rw [htext] at hsource hstartWhole hstopWhole
  refine ⟨head, tail, htext, rfl, x.before ++ head, tail ++ x.after, ?_, rfl, ?_⟩
  · refine hsource.trans ?_
    simp only [List.append_assoc]
  -- a `\r\n` that is parted inside of the text is parted in the code too
  refine not_partsBreak_append hstartWhole ?_ hstopWhole
  rintro ⟨hlast, hhead⟩
  refine hwhole ⟨?_, ?_⟩
  · rw [List.getLast?_append, hlast]
    rfl
  · rw [List.head?_append, hhead]
    rfl

/-- A place of the code that a mapping touches is moved along this mapping, to a place of the source that is
    as far in the text of the mapping. -/
theorem Link.exists_moved (x : Link source code m) (hfaithful : IsFaithful source code ms)
    (hm : m ∈ ms) (hcode : code = u ++ v) (hwhole : ¬ PartsBreak u v)
    (htouches : m.generated.touches (Text.size u) = true) :
    ∃ head tail, x.text = head ++ tail ∧ u = x.front ++ head ∧
      sourceIndex? ms (Text.size u) = some (Text.size (x.before ++ head)) ∧
      (Buffer.mk source).IsPlace (Text.size (x.before ++ head)) := by
  obtain ⟨head, tail, htext, rfl, hplace⟩ := x.exists_parts hcode hwhole htouches
  have hmoved : sourceIndex? ms (m.generated.start.offset + Text.size head) =
      some (m.source.start.offset + Text.size head) := by
    refine hfaithful.sourceIndex?_eq hm ?_
    rw [x.source_length, htext, size_append]
    exact Nat.le_add_right _ _
  rw [x.generated_start, x.source_start, ← size_append, ← size_append] at hmoved
  exact ⟨head, tail, htext, rfl, hmoved, hplace⟩

theorem exists_of_sourceIndex? (h : sourceIndex? ms j = some i) :
    ∃ m ∈ ms, m.generated.touches j = true := by
  obtain ⟨m, hfind, -⟩ := Option.map_eq_some_iff.mp h
  exact ⟨m, List.mem_of_find?_eq_some hfind, by simpa using List.find?_some hfind⟩

end Mapping

namespace Projection

open Buffer Mapping

variable {p : Projection} {document : Buffer} {r : Range} {m : Mapping} {i j : Nat}

/-- Both ends of a range of the generated text are on one mapping. -/
def IsOnOne (p : Projection) (r : Range) : Prop :=
  ∃ start stop, p.buffer.span? r = some (start, stop) ∧
    ∃ m ∈ p.mappings, m.generated.touches start = true ∧ m.generated.touches stop = true

/-- The ends of a range of the generated text are on two mappings, and there is code between them. -/
def IsAcross (p : Projection) (r : Range) : Prop :=
  ∃ start stop, p.buffer.span? r = some (start, stop) ∧
    ∃ m ∈ p.mappings, ∃ n ∈ p.mappings, m.generated.touches start = true ∧
      n.generated.touches stop = true ∧ m.generated.stop < n.generated.start.offset

/-- The mappings of a projection link it to a document. -/
structure IsLinked (p : Projection) (document : Buffer) : Prop where
  faithful : IsFaithful document.text p.generated.code p.mappings
  link : ∀ m ∈ p.mappings, Nonempty (Link document.text p.generated.code m)

/-- An edit and what it is moved to: the text is that of the edit, the range is one of the document, and
    unless code is between the mappings that the ends are on, both replace the same. -/
structure IsMovedTo (p : Projection) (document : Buffer) (given moved : Edit) : Prop where
  text : moved.text = given.text
  span : ∃ start stop, document.span? moved.range = some (start, stop)
  replaced : (p.IsOnOne given.range ∧
    ∃ t, p.buffer.textIn? given.range = some t ∧ document.textIn? moved.range = some t) ∨
      p.IsAcross given.range

/-- A place of the generated text that a mapping touches is moved to a place of the document. -/
theorem IsLinked.isPlace (hp : p.IsLinked document) (hm : m ∈ p.mappings) (hj : p.buffer.IsPlace j)
    (htouches : m.generated.touches j = true) (hi : sourceIndex? p.mappings j = some i) :
    document.IsPlace i := by
  obtain ⟨x⟩ := hp.link m hm
  obtain ⟨u, v, hcode, rfl, hwhole⟩ := hj
  obtain ⟨head, tail, -, -, hmoved, hplace⟩ := x.exists_moved hp.faithful hm hcode hwhole htouches
  rw [Option.some.inj (hi.symm.trans hmoved)]
  exact hplace

/-- A range with both ends on one mapping is moved to one in which the same text stands. -/
theorem IsLinked.sourceRange?_of_isOnOne (hp : p.IsLinked document) (hr : p.IsOnOne r) :
    ∃ range start stop t, p.sourceRange? document r .strict = some range ∧
      document.span? range = some (start, stop) ∧ p.buffer.textIn? r = some t ∧
      document.textIn? range = some t := by
  obtain ⟨start, stop, hspan, m, hm, hstart, hstop⟩ := hr
  obtain ⟨x⟩ := hp.link m hm
  obtain ⟨hi, hj, hle⟩ := isPlace_of_span? hspan
  obtain ⟨u, v, w, hcode, rfl, rfl, hu, hw⟩ := hi.exists_parts hj hle
  obtain ⟨head, tail, -, rfl, hfirst, hsource⟩ :=
    x.exists_moved hp.faithful hm (hcode.trans (List.append_assoc _ _ _)) hu hstart
  obtain ⟨head', tail', htext, hhead', hlast, hsource'⟩ := x.exists_moved hp.faithful hm hcode hw hstop
  -- what is between the ends in the code is between them in the text of the mapping
  obtain rfl : head' = head ++ v := by
    rw [List.append_assoc] at hhead'
    exact (List.append_cancel_left hhead').symm
  rw [← List.append_assoc] at hlast hsource'
  have hle' : Text.size (x.before ++ head) ≤ Text.size (x.before ++ head ++ v) := by
    rw [size_append _ v]
    exact Nat.le_add_right _ _
  obtain ⟨range, hrange, hspan'⟩ := hsource.exists_range? hsource' hle'
  have hdocument : document.text = x.before ++ head ++ v ++ (tail' ++ x.after) := by
    refine x.source_eq.trans ?_
    rw [htext]
    simp only [List.append_assoc]
  refine ⟨range, _, _, v, ?_, hspan', textIn?_eq hcode hspan, textIn?_eq hdocument hspan'⟩
  rw [sourceRange?, hspan]
  show (strictSpan? p.mappings _ _).bind _ = _
  rw [strictSpan?, hfirst, hlast]
  show (if _ ≤ _ then some _ else none).bind _ = _
  rw [if_pos hle']
  exact hrange

/-- A range that is moved has its ends on mappings, and is moved to a range of the document. -/
theorem IsLinked.of_sourceRange? (hp : p.IsLinked document) {range : Range}
    (h : p.sourceRange? document r .strict = some range) :
    (∃ start stop, document.span? range = some (start, stop)) ∧ (p.IsOnOne r ∨ p.IsAcross r) := by
  obtain ⟨⟨start, stop⟩, hspan, h⟩ := Option.bind_eq_some_iff.mp h
  obtain ⟨⟨first, last⟩, hmoved, hrange⟩ := Option.bind_eq_some_iff.mp h
  obtain ⟨first', hfirst, h⟩ := Option.bind_eq_some_iff.mp hmoved
  obtain ⟨last', hlast, h⟩ := Option.bind_eq_some_iff.mp h
  obtain ⟨hi, hj, hle⟩ := isPlace_of_span? hspan
  obtain ⟨m, hm, hmstart⟩ := exists_of_sourceIndex? hfirst
  obtain ⟨n, hn, hnstop⟩ := exists_of_sourceIndex? hlast
  split at h
  · next hle' =>
      obtain ⟨rfl, rfl⟩ := Prod.mk.inj (Option.some.inj h)
      constructor
      · obtain ⟨range', hrange', hspan'⟩ := (hp.isPlace hm hi hmstart hfirst).exists_range?
          (hp.isPlace hn hj hnstop hlast) hle'
        obtain rfl := Option.some.inj (hrange.symm.trans hrange')
        exact ⟨_, _, hspan'⟩
      · rcases hp.faithful.eq_or_apart hm hn hmstart hnstop hle with rfl | hgap
        · exact Or.inl ⟨start, stop, hspan, m, hm, hmstart, hnstop⟩
        · exact Or.inr ⟨start, stop, hspan, m, hm, n, hn, hmstart, hnstop, hgap⟩
  · exact nomatch h

/-- The edits that are moved are some of those given, in their order, and all of those that have both ends on
    one mapping. -/
theorem IsLinked.sourceEdits (hp : p.IsLinked document) (edits : List Edit) :
    ∃ kept, kept.Sublist edits ∧
      List.Forall₂ (p.IsMovedTo document) kept (p.sourceEdits document edits) ∧
      ∀ e ∈ edits, p.IsOnOne e.range → e ∈ kept := by
  obtain ⟨kept, hsublist, hmoved, hall⟩ := exists_sublist_filterMap (fun e : Edit =>
    (p.sourceRange? document e.range .strict).map fun range => { e with range }) edits
  refine ⟨kept, hsublist, hmoved.imp ?_, ?_⟩
  · intro given moved h
    obtain ⟨range, hrange, rfl⟩ := Option.map_eq_some_iff.mp h
    obtain ⟨hspan, hone | hacross⟩ := hp.of_sourceRange? hrange
    · obtain ⟨range', _, _, t, hrange', -, ht, ht'⟩ := hp.sourceRange?_of_isOnOne hone
      obtain rfl := Option.some.inj (hrange.symm.trans hrange')
      exact ⟨rfl, hspan, Or.inl ⟨hone, t, ht, ht'⟩⟩
    · exact ⟨rfl, hspan, Or.inr hacross⟩
  · intro e he hone
    obtain ⟨range, _, _, _, hrange, -⟩ := hp.sourceRange?_of_isOnOne hone
    refine hall e he ?_
    rw [hrange]
    exact Option.some_ne_none _

end Projection

namespace Engine

open Mapping

variable {e : Engine} {mayGoOn : Phase → Bool} {r : Request} {c : Compilation} {m : Mapping}

/-- What a mapping of compiled C# links is spelled the same on both sides. -/
theorem nonempty_link (h : e.compileWhile mayGoOn r = .ok c) (hm : m ∈ c.csharp.mappings) :
    Nonempty (Link r.source.text c.csharp.code m) := by
  obtain ⟨prints, hprints, hsound⟩ := exists_sound h
  rw [hprints] at hm ⊢
  obtain ⟨t, hne, hcopy, hlength, hslice⟩ := exists_copy_of_mem_mappings hm
  have hat := hsound.copies t m.source hcopy hne
  obtain ⟨before, after, hsource, hstart, hfirst, hlast⟩ := hat.text_eq
  obtain ⟨front, back, hcode, hfront, -⟩ := slice?_eq_some hslice
  exact ⟨{
    text := t, before, after, front, back
    source_eq := hsource.trans (List.append_assoc _ _ _)
    code_eq := hcode.trans (List.append_assoc _ _ _)
    source_start := hstart
    source_length := hat.length
    generated_start := hfront.symm
    generated_length := hlength
    start_whole := hfirst
    stop_whole := hlast }⟩

theorem isLinked_csharpProjection (h : e.compileWhile mayGoOn r = .ok c) :
    c.csharpProjection.IsLinked c.buffer := by
  obtain ⟨-, -, hrequest, -⟩ := compileWhile_eq_ok h
  have htext : c.buffer.text = r.source.text := by
    rw [Compilation.buffer, hrequest]
  refine ⟨?_, ?_⟩
  · rw [htext]
    exact isFaithful_csharp h
  · intro m hm
    rw [htext]
    exact nonempty_link h hm

/-- Edits of compiled C# that are moved to the document keep their order and their text. Where both ends of
    an edit are on one mapping, it is moved, and replaces what it replaced in the code; one with an end off
    the mappings is left out. -/
theorem sourceEdits_replace (h : e.compileWhile mayGoOn r = .ok c) (edits : List Edit) :
    ∃ kept, kept.Sublist edits ∧
      List.Forall₂ (c.csharpProjection.IsMovedTo c.buffer) kept
        (c.csharpProjection.sourceEdits c.buffer edits) ∧
      ∀ e ∈ edits, c.csharpProjection.IsOnOne e.range → e ∈ kept :=
  (isLinked_csharpProjection h).sourceEdits edits

/-- An edit that renames the expression of a page is moved to the document. -/
theorem sourceEdits_replace_expression :
    ∃ c, bare.compileWhile (fun _ => true) ⟨.anonymous "@x", .legacy, []⟩ = .ok c ∧
      c.csharpProjection.sourceEdits c.buffer [⟨⟨⟨17, 18⟩, ⟨17, 19⟩⟩, "y".toList⟩] =
        [⟨⟨⟨0, 1⟩, ⟨0, 2⟩⟩, "y".toList⟩] ∧
      ∃ kept, kept.Sublist [⟨⟨⟨17, 18⟩, ⟨17, 19⟩⟩, "y".toList⟩] ∧
        List.Forall₂ (c.csharpProjection.IsMovedTo c.buffer) kept
          (c.csharpProjection.sourceEdits c.buffer [⟨⟨⟨17, 18⟩, ⟨17, 19⟩⟩, "y".toList⟩]) ∧
        ∀ e ∈ [(⟨⟨⟨17, 18⟩, ⟨17, 19⟩⟩, "y".toList⟩ : Edit)],
          c.csharpProjection.IsOnOne e.range → e ∈ kept := by
  have hmoved : (bare.compileWhile (fun _ => true) ⟨.anonymous "@x", .legacy, []⟩).toOption.map
      (fun c => c.csharpProjection.sourceEdits c.buffer [⟨⟨⟨17, 18⟩, ⟨17, 19⟩⟩, "y".toList⟩]) =
        some [⟨⟨⟨0, 1⟩, ⟨0, 2⟩⟩, "y".toList⟩] := by
    decide +kernel
  obtain ⟨c, hc, hmoved⟩ := exists_ok_of_map_toOption hmoved
  exact ⟨c, hc, hmoved, sourceEdits_replace hc _⟩

/-- Where an edit reaches from one expression to another, what is generated between them counts as the text
    between the expressions in the document. -/
theorem sourceEdits_across :
    ∃ c, bare.compileWhile (fun _ => true) ⟨.anonymous "<p>@a @b</p>", .legacy, []⟩ = .ok c ∧
      c.csharpProjection.sourceEdits c.buffer [⟨⟨⟨18, 18⟩, ⟨20, 19⟩⟩, "x".toList⟩] =
        [⟨⟨⟨0, 4⟩, ⟨0, 8⟩⟩, "x".toList⟩] ∧
      c.csharpProjection.buffer.textIn? ⟨⟨18, 18⟩, ⟨20, 19⟩⟩ =
        some "a);\n            WriteLiteral(\" \");\n            Write(b".toList ∧
      c.buffer.textIn? ⟨⟨0, 4⟩, ⟨0, 8⟩⟩ = some "a @b".toList := by
  have hfacts : (bare.compileWhile (fun _ => true)
      ⟨.anonymous "<p>@a @b</p>", .legacy, []⟩).toOption.map (fun c =>
        (c.csharpProjection.sourceEdits c.buffer [⟨⟨⟨18, 18⟩, ⟨20, 19⟩⟩, "x".toList⟩],
          c.csharpProjection.buffer.textIn? ⟨⟨18, 18⟩, ⟨20, 19⟩⟩,
          c.buffer.textIn? ⟨⟨0, 4⟩, ⟨0, 8⟩⟩)) =
      some ([⟨⟨⟨0, 4⟩, ⟨0, 8⟩⟩, "x".toList⟩],
        some "a);\n            WriteLiteral(\" \");\n            Write(b".toList,
        some "a @b".toList) := by
    decide +kernel
  obtain ⟨c, hc, hfacts⟩ := exists_ok_of_map_toOption hfacts
  obtain ⟨hmoved, htexts⟩ := Prod.mk.inj hfacts
  obtain ⟨hcode, hdocument⟩ := Prod.mk.inj htexts
  exact ⟨c, hc, hmoved, hcode, hdocument⟩

end Engine

end RazorLang
