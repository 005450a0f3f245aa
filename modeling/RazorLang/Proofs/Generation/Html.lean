import RazorLang.Generation.Html
import RazorLang.Proofs.Engine
import RazorLang.Proofs.TagHelper.Binding
import RazorLang.Proofs.Text.Bytes
import RazorLang.Proofs.Tree.Coverage

/-!
# The HTML projection is a masked copy

Main statement: `ParsedDocument.isMaskedCopy_toHtml` — byte for byte, the HTML projection of a source is the
source where there is markup and at line breaks, and `~` elsewhere; its mappings are exactly the stretches of
markup. The projection of a compilation is that of the parsed source, whatever else the source is compiled
with.

The route: all that a projection takes from a tree are its tokens, each with whether it is markup
(`Projection.marks`), and binding does not change these (`Projection.marks_bindTree`). The bytes follow by
induction on the tokens as a run through the source (`Projection.bytes_project`), and the mappings from what
joining does to stretches that lie apart (`Projection.joins_joinRuns`).
-/

namespace RazorLang

open RazorLang.Tree Text

namespace Projection

/-- A byte of a source is markup: it is in a token that a node of markup holds. -/
def InMarkup (root : Tree) (i : Nat) : Prop :=
  ∃ e ∈ ownedTokens root, e.1.isMarkup = true ∧ e.2.span.contains i = true

instance (root : Tree) (i : Nat) : Decidable (InMarkup root i) :=
  inferInstanceAs (Decidable (∃ e ∈ ownedTokens root, e.1.isMarkup = true ∧ e.2.span.contains i = true))

/-- What stands for a byte that is not markup. -/
def maskByte (b : UInt8) : UInt8 := if b = '\n'.toUInt8 ∨ b = '\r'.toUInt8 then b else '~'.toUInt8

/-- The bytes of a text, masked where there is no markup. -/
def maskedBytes (root : Tree) (t : Text) : List UInt8 :=
  (bytes t).mapIdx fun i b => if InMarkup root i then b else maskByte b

/-- A generated text is the masked copy of a source with a certain tree, and its mappings are the stretches
    of markup, which stand where they stand in the source. -/
structure IsMaskedCopy (d : Source) (root : Tree) (g : Generated) : Prop where
  size : Text.size g.code = d.size
  bytes : Text.bytes g.code = maskedBytes root d.text
  isValid : (maskedBytes root d.text).toByteArray.IsValidUTF8
  source : ∀ m ∈ g.mappings, m.source = d.span m.source.start.offset m.source.length
  generated : ∀ m ∈ g.mappings, m.generated = { m.source with path := none }
  positive : ∀ m ∈ g.mappings, 0 < m.source.length
  apart : g.mappings.Pairwise fun m n => m.source.stop < n.source.start.offset
  covers : ∀ i, (∃ m ∈ g.mappings, m.source.contains i = true) ↔ InMarkup root i

/-! ## The tokens of a tree -/

/-- The tokens of a tree, each with whether it is markup. -/
def marks (root : Tree) : List (Bool × Token) :=
  (ownedTokens root).map fun e => (e.1.isMarkup, e.2)

theorem map_snd_marks (root : Tree) : (marks root).map Prod.snd = root.tokens := by
  rw [marks, List.map_map]
  exact map_snd_owned .document root

/-- Binding does not change what is markup, since elements are markup with and without tag helpers. -/
theorem marks_bindTree (c : TagHelperScope) (parent : Option Text) (root : Tree) :
    marks (c.bindTree parent root) = marks root := by
  have howned (t : Tree) : ∀ (parent : Option Text) (k k' : NodeKind), k.isMarkup = k'.isMarkup →
      ((c.bindTree parent t).owned k).map (fun e => (e.1.isMarkup, e.2)) =
        (t.owned k').map fun e => (e.1.isMarkup, e.2) := by
    induction t using Tree.induct with
    | token t =>
        intro parent k k' hk
        rw [c.bindTree_token, owned, owned, List.map_singleton, List.map_singleton, hk]
    | node kind span label children ih =>
        intro parent k k' _
        obtain ⟨kind', label', parent', hbind, hcases⟩ :=
          c.bindTree_node parent kind span label children
        have hkind : kind'.isMarkup = kind.isMarkup := by
          rcases hcases with ⟨rfl, -⟩ | ⟨rfl, rfl, -⟩
          · rfl
          · rfl
        rw [hbind, owned, owned, ownedAll_eq_flatMap, ownedAll_eq_flatMap, List.flatMap_map,
          List.map_flatMap, List.map_flatMap]
        exact List.flatMap_congr fun t ht => ih t ht parent' kind' kind hkind
  exact howned root parent .document .document rfl

theorem inMarkup_iff {root : Tree} {i : Nat} :
    InMarkup root i ↔ ∃ e ∈ marks root, e.1 = true ∧ e.2.span.contains i = true := by
  rw [InMarkup, marks]
  simp only [List.mem_map, exists_exists_and_eq_and]

theorem markupTokens_eq (root : Tree) :
    markupTokens root =
      ((marks root).filter fun e => e.1 && !e.2.content.isEmpty).map Prod.snd := by
  rw [markupTokens, marks, List.filter_map, List.map_map]
  rfl

theorem markupTokens_sublist (root : Tree) : (markupTokens root).Sublist root.tokens := by
  rw [markupTokens_eq, ← map_snd_marks]
  exact List.filter_sublist.map Prod.snd

/-- A projection takes nothing from a tree but its tokens and whether they are markup. -/
theorem toHtml_congr {p q : ParsedDocument} (h : marks p.root = marks q.root) : p.toHtml = q.toHtml := by
  have hcode (r : Tree) : ((ownedTokens r).flatMap fun e => project e.1 e.2) =
      (marks r).flatMap fun e => if e.1 = true then e.2.content else mask e.2.content := by
    rw [marks, List.flatMap_map]
    rfl
  rw [ParsedDocument.toHtml, ParsedDocument.toHtml, runs, runs, markupTokens_eq, markupTokens_eq, h]
  congr 1
  exact (hcode p.root).trans (h ▸ (hcode q.root).symm)

/-! ## Bytes -/

theorem bytes_maskChar (c : Char) : bytes (maskChar c) = (String.utf8EncodeChar c).map maskByte := by
  rw [maskChar]
  by_cases hbreak : isLineBreak c = true
  · rw [if_pos hbreak]
    rcases Bool.or_eq_true_iff.mp hbreak with h | h
    · rw [beq_iff_eq.mp h]
      decide
    · rw [beq_iff_eq.mp h]
      decide
  · rw [if_neg hbreak]
    have hmasked : (String.utf8EncodeChar c).map maskByte = List.replicate c.utf8Size '~'.toUInt8 := by
      rw [← String.length_utf8EncodeChar, ← List.map_const']
      refine List.map_congr_left ?_
      intro b hb
      obtain ⟨hlf, hcr⟩ := ne_of_mem_utf8EncodeChar (Bool.eq_false_iff.mpr hbreak) hb
      exact if_neg (not_or.mpr ⟨hlf, hcr⟩)
    rw [hmasked, bytes, List.flatMap_replicate]
    induction c.utf8Size with
    | zero => rfl
    | succ n ih => rw [List.replicate_succ, List.flatten_cons, ih, List.replicate_succ]; rfl

theorem bytes_mask (t : Text) : bytes (mask t) = (bytes t).map maskByte := by
  induction t with
  | nil => rfl
  | cons c t ih =>
      rw [mask, List.flatMap_cons, bytes_append, bytes_maskChar, bytes_cons, List.map_append, ← ih]
      rfl

section Marked

variable {path : Option Text} {l : Location} {t : Token} {isMarked : Bool} {marked : List (Bool × Token)}

/-- A byte of the first of some tokens lies in no later one. -/
theorem exists_marked_head (span : t.span = ⟨path, l, Text.size t.content⟩)
    (hlater : ∀ e ∈ marked, l.offset + Text.size t.content ≤ e.2.span.start.offset) {i : Nat}
    (hi : i < Text.size t.content) :
    (∃ e ∈ (isMarked, t) :: marked, e.1 = true ∧ e.2.span.contains (l.offset + i) = true) ↔ isMarked = true := by
  constructor
  · rintro ⟨e, he, hmark, hcontains⟩
    rcases List.mem_cons.mp he with rfl | he
    · exact hmark
    · have := hlater e he
      rw [Span.contains_eq_true] at hcontains
      omega
  · intro hmark
    refine ⟨_, List.mem_cons_self, hmark, Span.contains_eq_true.mpr ?_⟩
    rw [Span.stop, span]
    exact ⟨Nat.le_add_right _ _, Nat.add_lt_add_left hi _⟩

/-- A byte behind the first of some tokens lies in a later one or in none. -/
theorem exists_marked_tail (span : t.span = ⟨path, l, Text.size t.content⟩) (i : Nat) :
    (∃ e ∈ (isMarked, t) :: marked, e.1 = true ∧ e.2.span.contains (l.offset + (i + Text.size t.content)) = true) ↔
      ∃ e ∈ marked, e.1 = true ∧ e.2.span.contains ((l.advance t.content).offset + i) = true := by
  rw [Location.advance_offset, Nat.add_comm i, ← Nat.add_assoc]
  constructor
  · rintro ⟨e, he, hmark, hcontains⟩
    rcases List.mem_cons.mp he with rfl | he
    · rw [Span.contains_eq_true, Span.stop, span] at hcontains
      dsimp only at hcontains
      omega
    · exact ⟨e, he, hmark, hcontains⟩
  · rintro ⟨e, he, hmark, hcontains⟩
    exact ⟨e, List.mem_cons_of_mem _ he, hmark, hcontains⟩

end Marked

/-- What the tokens of a run are in the projection, if some of its bytes are markup and these are the bytes
    of the marked tokens. -/
theorem bytes_project {path : Option Text} {l l' : Location} {s s' : Text} {marked : List (Bool × Token)}
    (hrun : Token.Run path l s (marked.map Prod.snd) l' s') :
    bytes (marked.flatMap fun e => if e.1 = true then e.2.content else mask e.2.content) =
      (bytes (contentOf (marked.map Prod.snd))).mapIdx fun i b =>
        if ∃ e ∈ marked, e.1 = true ∧ e.2.span.contains (l.offset + i) = true then b
        else maskByte b := by
  induction marked generalizing l s with
  | nil => rfl
  | cons e marked ih =>
      obtain ⟨isMarked, t⟩ := e
      cases hrun with
      | @cons _ _ _ u _ _ span whole tail =>
          have hlater (e : Bool × Token) (he : e ∈ marked) :
              l.offset + Text.size t.content ≤ e.2.span.start.offset := by
            have := tail.offset_le (List.mem_map_of_mem (f := Prod.snd) he)
            rwa [Location.advance_offset] at this
          -- the bytes of the first token are all marked or none, and those behind it are marked as in the rest
          rw [List.flatMap_cons, bytes_append, ih tail, List.map_cons, contentOf_cons, bytes_append,
            List.mapIdx_append, length_bytes]
          congr 1
          · cases isMarked with
            | true =>
                refine List.ext_getElem List.length_mapIdx.symm ?_
                intro i hi _
                have hi : i < Text.size t.content := length_bytes t.content ▸ hi
                rw [List.getElem_mapIdx, if_pos ((exists_marked_head span hlater hi).mpr rfl)]
                rfl
            | false =>
                show bytes (mask t.content) = _
                rw [bytes_mask]
                refine List.ext_getElem (by rw [List.length_map, List.length_mapIdx]) ?_
                intro i hi _
                rw [List.length_map, length_bytes] at hi
                rw [List.getElem_map, List.getElem_mapIdx,
                  if_neg fun h => Bool.false_ne_true ((exists_marked_head span hlater hi).mp h)]
          · refine congrArg (List.mapIdx · _) (funext fun i => funext fun b => ?_)
            exact if_congr (exists_marked_tail span i).symm rfl rfl

/-! ## Stretches -/

/-- What joining makes of stretches that lie apart from each other: stretches with a gap between any two,
    which start where some of the given ones do and have the same bytes. -/
structure Joins (spans joined : List Span) : Prop where
  first : joined.head?.map (·.start.offset) = spans.head?.map (·.start.offset)
  start : ∀ r ∈ joined, ∃ s ∈ spans, r.path = s.path ∧ r.start = s.start
  positive : ∀ r ∈ joined, 0 < r.length
  apart : joined.Pairwise fun r r' => r.stop < r'.start.offset
  covers : ∀ i, (∃ r ∈ joined, r.contains i = true) ↔ ∃ s ∈ spans, s.contains i = true

variable {s r : Span} {rest joined runs : List Span}

/-- A stretch with a gap behind it stays as it is. -/
theorem Joins.keep (h : Joins rest joined) (hs : 0 < s.length)
    (hgap : ∀ r ∈ joined, s.stop < r.start.offset) : Joins (s :: rest) (s :: joined) where
  first := rfl
  start t ht := by
    rcases List.mem_cons.mp ht with rfl | ht
    · exact ⟨t, List.mem_cons_self, rfl, rfl⟩
    · obtain ⟨u, hu, hplace⟩ := h.start t ht
      exact ⟨u, List.mem_cons_of_mem _ hu, hplace⟩
  positive t ht := by
    rcases List.mem_cons.mp ht with rfl | ht
    · exact hs
    · exact h.positive t ht
  apart := List.pairwise_cons.mpr ⟨hgap, h.apart⟩
  covers i := by rw [List.exists_mem_cons_iff, h.covers i, List.exists_mem_cons_iff]

/-- A stretch with another one right behind it becomes one with it. -/
theorem Joins.merge (h : Joins rest (r :: runs)) (hs : s.stop = r.start.offset) :
    Joins (s :: rest) ({ s with length := r.stop - s.start.offset } :: runs) := by
  obtain ⟨hr, hruns⟩ := List.pairwise_cons.mp h.apart
  have hlength := h.positive r List.mem_cons_self
  have hsstop : s.stop = s.start.offset + s.length := rfl
  have hrstop : r.stop = r.start.offset + r.length := rfl
  have hstop : Span.stop { s with length := r.stop - s.start.offset } = r.stop := by
    show s.start.offset + (r.stop - s.start.offset) = r.stop
    omega
  refine ⟨rfl, ?_, ?_, List.pairwise_cons.mpr ⟨?_, hruns⟩, ?_⟩
  · intro t ht
    rcases List.mem_cons.mp ht with rfl | ht
    · exact ⟨s, List.mem_cons_self, rfl, rfl⟩
    · obtain ⟨u, hu, hplace⟩ := h.start t (List.mem_cons_of_mem _ ht)
      exact ⟨u, List.mem_cons_of_mem _ hu, hplace⟩
  · intro t ht
    rcases List.mem_cons.mp ht with rfl | ht
    · show 0 < r.stop - s.start.offset
      omega
    · exact h.positive t (List.mem_cons_of_mem _ ht)
  · intro t ht
    rw [hstop]
    exact hr t ht
  · intro i
    rw [List.exists_mem_cons_iff, List.exists_mem_cons_iff, ← h.covers i, List.exists_mem_cons_iff,
      ← or_assoc, Span.contains_eq_true, Span.contains_eq_true, Span.contains_eq_true, hstop]
    refine or_congr_left ?_
    dsimp only
    omega

theorem joins_joinRuns {spans : List Span} (hpositive : ∀ s ∈ spans, 0 < s.length)
    (hapart : spans.Pairwise fun s t => s.stop ≤ t.start.offset) : Joins spans (joinRuns spans) := by
  induction spans with
  | nil => exact ⟨rfl, nofun, nofun, .nil, fun i => Iff.rfl⟩
  | cons s rest ih =>
      obtain ⟨hs, hrest⟩ := List.pairwise_cons.mp hapart
      have hlength := hpositive s List.mem_cons_self
      have hjoins := ih (fun t ht => hpositive t (List.mem_cons_of_mem _ ht)) hrest
      rw [joinRuns]
      cases hjoin : joinRuns rest with
      | nil =>
          rw [hjoin] at hjoins
          exact hjoins.keep hlength nofun
      | cons r runs =>
          rw [hjoin] at hjoins
          -- what is joined starts where the next stretch does, which is not before the end of this one
          have hafter : s.stop ≤ r.start.offset := by
            cases rest with
            | nil => exact nomatch hjoins.first
            | cons t rest =>
                rw [show r.start.offset = t.start.offset from Option.some.inj hjoins.first]
                exact hs t List.mem_cons_self
          dsimp only
          by_cases htouch : r.start.offset ≤ s.stop
          · rw [if_pos htouch]
            exact hjoins.merge (Nat.le_antisymm hafter htouch)
          · rw [if_neg htouch]
            refine hjoins.keep hlength ?_
            intro t ht
            rcases List.mem_cons.mp ht with rfl | ht
            · exact Nat.lt_of_not_le htouch
            · have hrt := (List.pairwise_cons.mp hjoins.apart).1 t ht
              have hrstop : r.stop = r.start.offset + r.length := rfl
              omega

end Projection

/-! ## The projection of a source -/

namespace ParsedDocument

open Projection

variable {kind : FileKind} {d : Source}

theorem span_of_mem_tokens {t : Token} (ht : t ∈ (parse kind d).root.tokens) :
    t.span = d.span t.span.start.offset (Text.size t.content) := by
  obtain ⟨⟨l, hrun⟩, -, -⟩ := parse_run kind d
  obtain ⟨before, after, htokens⟩ := List.append_of_mem ht
  exact (hrun.span_eq htokens).1

/-- The stretches of markup of a source are what joining makes of its tokens of markup. -/
theorem joins_runs (kind : FileKind) (d : Source) :
    Joins ((markupTokens (parse kind d).root).map (·.span)) (runs (parse kind d).root) := by
  obtain ⟨⟨l, hrun⟩, -, -⟩ := parse_run kind d
  have hsublist := markupTokens_sublist (parse kind d).root
  refine joins_joinRuns ?_ ?_
  · intro s hs
    obtain ⟨t, ht, rfl⟩ := List.mem_map.mp hs
    rw [span_of_mem_tokens (hsublist.subset ht)]
    rw [markupTokens_eq] at ht
    obtain ⟨e, he, rfl⟩ := List.mem_map.mp ht
    have hne := (Bool.and_eq_true_iff.mp (List.mem_filter.mp he).2).2
    exact size_pos_of_ne_nil (by simpa using hne)
  · exact List.pairwise_map.mpr (hrun.pairwise.sublist hsublist)

/-- A byte is markup if one of the tokens of markup that are not empty contains it. -/
theorem exists_markupToken_iff (kind : FileKind) (d : Source) (i : Nat) :
    (∃ s ∈ (markupTokens (parse kind d).root).map (·.span), s.contains i = true) ↔
      InMarkup (parse kind d).root i := by
  rw [inMarkup_iff, markupTokens_eq, List.map_map]
  constructor
  · rintro ⟨s, hs, hcontains⟩
    obtain ⟨e, he, rfl⟩ := List.mem_map.mp hs
    obtain ⟨hmem, hmark⟩ := List.mem_filter.mp he
    exact ⟨e, hmem, (Bool.and_eq_true_iff.mp hmark).1, hcontains⟩
  · rintro ⟨e, he, hmark, hcontains⟩
    refine ⟨_, List.mem_map_of_mem (List.mem_filter.mpr ⟨he, ?_⟩), hcontains⟩
    have htoken : e.2 ∈ (parse kind d).root.tokens := by
      rw [← map_snd_marks]
      exact List.mem_map_of_mem he
    have hne : e.2.content ≠ [] := by
      intro hnil
      obtain ⟨hle, hlt⟩ := Span.contains_eq_true.mp hcontains
      rw [Span.stop, congrArg Span.length (span_of_mem_tokens htoken), hnil] at hlt
      exact absurd hle (Nat.not_le_of_lt hlt)
    rw [hmark, Bool.true_and]
    simpa using hne

/-- The projection of a parsed source is a masked copy of it. -/
theorem isMaskedCopy_parse (kind : FileKind) (d : Source) :
    IsMaskedCopy d (parse kind d).root (parse kind d).toHtml := by
  obtain ⟨⟨l, hrun⟩, -, -⟩ := parse_run kind d
  have hjoins := joins_runs kind d
  -- the code is that of the marked tokens, which spell the source
  have hbytes : Text.bytes (parse kind d).toHtml.code = maskedBytes (parse kind d).root d.text := by
    have htext : contentOf (parse kind d).root.tokens = d.text := hrun.contentOf_eq
    rw [← map_snd_marks] at hrun htext
    have hproject := bytes_project hrun
    rw [htext] at hproject
    refine Eq.trans ?_ (hproject.trans ?_)
    · rw [ParsedDocument.toHtml, marks, List.flatMap_map]
      rfl
    · refine congrArg (List.mapIdx · _) (funext fun i => funext fun b => ?_)
      rw [show Location.start.offset + i = i from Nat.zero_add i]
      exact if_congr inMarkup_iff.symm rfl rfl
  have hmember {m : Mapping} (hm : m ∈ (parse kind d).toHtml.mappings) :
      m.source ∈ runs (parse kind d).root ∧ m.generated = { m.source with path := none } := by
    obtain ⟨s, hs, rfl⟩ := List.mem_map.mp hm
    exact ⟨hs, rfl⟩
  refine ⟨?_, hbytes, ?_, ?_, fun m hm => (hmember hm).2,
    fun m hm => hjoins.positive _ (hmember hm).1, List.pairwise_map.mpr hjoins.apart, ?_⟩
  · rw [← length_bytes, hbytes, maskedBytes, List.length_mapIdx, length_bytes, Source.size]
  · rw [← hbytes]
    exact isValidUTF8_bytes _
  · intro m hm
    obtain ⟨s, hs, hpath, hstart⟩ := hjoins.start _ (hmember hm).1
    obtain ⟨t, ht, rfl⟩ := List.mem_map.mp hs
    have hspan := span_of_mem_tokens ((markupTokens_sublist _).subset ht)
    have hplace : m.source.start = d.location m.source.start.offset := by
      rw [hstart]
      exact congrArg Span.start hspan
    have hsource : m.source.path = d.path := hpath.trans (congrArg Span.path hspan)
    rw [Source.span, ← hplace, ← hsource]
  · intro i
    rw [← exists_markupToken_iff kind d i, ← hjoins.covers i, toHtml]
    simp only [List.mem_map, exists_exists_and_eq_and]

theorem lt_size_of_inMarkup {i : Nat} (h : InMarkup (parse kind d).root i) : i < d.size := by
  obtain ⟨⟨l, hrun⟩, -, -⟩ := parse_run kind d
  obtain ⟨e, he, -, hcontains⟩ := inMarkup_iff.mp h
  have htoken : e.2 ∈ (parse kind d).root.tokens := by
    rw [← map_snd_marks]
    exact List.mem_map_of_mem he
  refine Nat.lt_of_lt_of_le (Span.contains_eq_true.mp hcontains).2 (Nat.le_trans (hrun.stop_le htoken) ?_)
  rw [hrun.offset, hrun.contentOf_eq]
  exact Nat.le_of_eq (Nat.zero_add _)

/-! ## The projection of a compilation -/

variable {e : Engine} {mayGoOn : Engine.Phase → Bool} {r : Request} {c : Compilation}

theorem marks_compileWhile (h : e.compileWhile mayGoOn r = .ok c) :
    marks c.document.root = marks (parse r.fileKind r.source).root := by
  obtain ⟨-, -, -, hdocument, -⟩ := Engine.compileWhile_eq_ok h
  rw [hdocument]
  exact marks_bindTree _ _ _

theorem html_compileWhile (h : e.compileWhile mayGoOn r = .ok c) :
    c.html = (parse r.fileKind r.source).toHtml := by
  obtain ⟨-, -, -, hdocument, hhtml⟩ := Engine.compileWhile_eq_ok h
  rw [hhtml, ← hdocument]
  exact toHtml_congr (marks_compileWhile h)

/-- The HTML of a source is a masked copy of it, and whatever else the source is compiled with, the
    compilation has this HTML and the same markup. -/
theorem isMaskedCopy_toHtml (kind : FileKind) (d : Source) :
    IsMaskedCopy d (parse kind d).root (parse kind d).toHtml ∧
      ∀ (e : Engine) (mayGoOn : Engine.Phase → Bool) (r : Request) (c : Compilation),
        r.source = d → r.fileKind = kind → e.compileWhile mayGoOn r = .ok c →
          c.html = (parse kind d).toHtml ∧
            ∀ i, InMarkup c.document.root i ↔ InMarkup (parse kind d).root i := by
  refine ⟨isMaskedCopy_parse kind d, ?_⟩
  rintro e mayGoOn r c rfl rfl hcompile
  refine ⟨html_compileWhile hcompile, ?_⟩
  intro i
  rw [inMarkup_iff, inMarkup_iff, marks_compileWhile hcompile]

/-- Code between markup is masked. -/
example : (parse .legacy (.anonymous "<p>@x</p>\n")).toHtml.code = "<p>~~</p>\n".toList := by
  decide +kernel

end ParsedDocument

end RazorLang
