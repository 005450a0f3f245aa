import Mathlib.Data.List.TakeWhile
import RazorLang.Proofs.Editor.Remapping
import RazorLang.Proofs.Sorting

/-!
# Moving what lies off the mappings

Where the reach is inclusive, what no mapping touches is moved too. Main statements:

* `Mapping.nearest?_characterized` — an offset moves to the end of the mapping that is nearest to it. This is
  the one with the greatest source start that is not behind the offset (`Mapping.IsNearest`), of several the
  first that is given, if they start at the offset, and the last, if they start before it; there is none
  exactly if all mappings start behind the offset.
* `Engine.sourceRange?_encloses_iff` — a range of generated C# that shares bytes with mappings moves to what
  lies between the first and the last of them. These are the first and the last in the generated text, so in
  the source they may stand in any order: all that the range shares bytes with is enclosed exactly if none of
  it stands before the first or behind the last there, which is not always so
  (`Engine.sourceRange?_not_enclosing`).

The route: the mappings are sorted by their starts, and those with one start stay in the order in which they
are given. So the nearest is found on either side of the place where the offset would be put in. The ends of a
range lead to places of the source, since the mappings link the two texts (`Projection.IsLinked`).
-/

namespace RazorLang

namespace Mapping

/-- A mapping starts at an offset or before it, none of some mappings starts in between, and of those that
    start where it does, it is the first if that is at the offset, and the last otherwise. -/
structure IsNearest (ms : List Mapping) (i : Nat) (m : Mapping) : Prop where
  notBehind : m.source.start.offset ≤ i
  greatest : ∀ n ∈ ms, n.source.start.offset ≤ i → n.source.start.offset ≤ m.source.start.offset
  place : ∃ before after, ms = before ++ m :: after ∧
    (m.source.start.offset = i → ∀ n ∈ before, n.source.start.offset ≠ i) ∧
    (m.source.start.offset < i → ∀ n ∈ after, n.source.start.offset ≠ m.source.start.offset)

variable {ms : List Mapping} {i k : Nat} {m n : Mapping}

/-- The mappings among some that start at an offset. -/
def startingAt (ms : List Mapping) (k : Nat) : List Mapping := ms.filter (·.source.start.offset == k)

/-- The order in which mappings are searched. -/
def bySourceStart (ms : List Mapping) : List Mapping :=
  ms.mergeSort fun m n => m.source.start.offset ≤ n.source.start.offset

/-! ## Which mapping is nearest -/

/-- The first of the mappings that start at an offset. -/
theorem head?_startingAt : (startingAt ms k).head? = some m ↔ m.source.start.offset = k ∧
    ∃ before after, ms = before ++ m :: after ∧ ∀ n ∈ before, n.source.start.offset ≠ k := by
  rw [startingAt, List.head?_filter, List.find?_eq_some_iff_append, beq_iff_eq]
  simp only [Bool.not_eq_true', beq_eq_false_iff_ne]

/-- The last of the mappings that start at an offset. -/
theorem getLast?_startingAt : (startingAt ms k).getLast? = some m ↔ m.source.start.offset = k ∧
    ∃ before after, ms = before ++ m :: after ∧ ∀ n ∈ after, n.source.start.offset ≠ k := by
  rw [startingAt, List.getLast?_filter, List.find?_eq_some_iff_append, beq_iff_eq]
  simp only [Bool.not_eq_true', beq_eq_false_iff_ne]
  refine and_congr_right fun _ => ⟨?_, ?_⟩
  · rintro ⟨after, before, hreverse, hafter⟩
    refine ⟨before.reverse, after.reverse, ?_, fun n hn => hafter n (List.mem_reverse.mp hn)⟩
    rw [← List.reverse_reverse ms, hreverse, List.reverse_append, List.reverse_cons, List.append_assoc]
    rfl
  · rintro ⟨before, after, rfl, hafter⟩
    refine ⟨after.reverse, before.reverse, ?_, fun n hn => hafter n (List.mem_reverse.mp hn)⟩
    rw [List.reverse_append, List.reverse_cons, List.append_assoc]
    rfl

theorem IsNearest.mem (h : IsNearest ms i m) : m ∈ ms := by
  obtain ⟨before, after, rfl, -⟩ := h.place
  exact List.mem_append_right before List.mem_cons_self

/-- Only one mapping is nearest. -/
theorem IsNearest.eq (hm : IsNearest ms i m) (hn : IsNearest ms i n) : m = n := by
  have hstart : n.source.start.offset = m.source.start.offset :=
    Nat.le_antisymm (hm.greatest n hn.mem hn.notBehind) (hn.greatest m hm.mem hm.notBehind)
  obtain ⟨before, after, hms, hfirst, hlast⟩ := hm.place
  obtain ⟨before', after', hms', hfirst', hlast'⟩ := hn.place
  rcases Nat.lt_or_eq_of_le hm.notBehind with hlt | heq
  · have hm := getLast?_startingAt.mpr ⟨rfl, before, after, hms, hlast hlt⟩
    have hn := getLast?_startingAt.mpr ⟨hstart, before', after', hms', hstart ▸ hlast' (hstart ▸ hlt)⟩
    exact Option.some.inj (hm.symm.trans hn)
  · have hm := head?_startingAt.mpr ⟨heq, before, after, hms, hfirst heq⟩
    have hn := head?_startingAt.mpr ⟨hstart.trans heq, before', after', hms', hfirst' (hstart.trans heq)⟩
    exact Option.some.inj (hm.symm.trans hn)

/-! ## The search -/

theorem mem_bySourceStart : m ∈ bySourceStart ms ↔ m ∈ ms := List.mem_mergeSort

/-- The mappings are searched in the order of their starts. -/
theorem pairwise_bySourceStart (ms : List Mapping) :
    (bySourceStart ms).Pairwise fun m n => m.source.start.offset ≤ n.source.start.offset :=
  pairwise_mergeSort_key _ ms

/-- Mappings with one start are searched in the order in which they are given. -/
theorem startingAt_bySourceStart (ms : List Mapping) (k : Nat) :
    startingAt (bySourceStart ms) k = startingAt ms k :=
  filter_mergeSort_key _ k ms

/-- The mappings as they are searched, parted where an offset would be put in. -/
structure Sides (ms : List Mapping) (i : Nat) (before behind : List Mapping) : Prop where
  all : bySourceStart ms = before ++ behind
  before : ∀ n ∈ before, n.source.start.offset < i
  behind : ∀ n ∈ behind, i ≤ n.source.start.offset

variable {before behind : List Mapping}

/-- The search looks at the first mapping behind the place and at the last one in front of it. -/
theorem exists_sides (ms : List Mapping) (i : Nat) :
    ∃ before behind, Sides ms i before behind ∧ nearest? ms i = match behind.head? with
      | some m => if m.source.start.offset = i then some m else before.getLast?
      | none => before.getLast? := by
  refine ⟨_, _, ⟨List.takeWhile_append_dropWhile.symm, fun n hn => ?_, fun n hn => ?_⟩, rfl⟩
  · simpa using List.mem_takeWhile_imp hn
  · exact le_of_mem_dropWhile (pairwise_bySourceStart ms) hn

theorem Sides.mem_iff (h : Sides ms i before behind) : n ∈ ms ↔ n ∈ before ∨ n ∈ behind := by
  rw [← mem_bySourceStart, h.all, List.mem_append]

theorem Sides.startingAt_eq (h : Sides ms i before behind) (k : Nat) :
    startingAt ms k = startingAt before k ++ startingAt behind k := by
  rw [← startingAt_bySourceStart, h.all]
  exact List.filter_append ..

/-- The first mapping behind the place is the nearest, if it starts at the offset. -/
theorem Sides.isNearest_first (h : Sides ms i before (m :: behind)) (hm : m.source.start.offset = i) :
    IsNearest ms i m := by
  -- none in front of the place starts at the offset, so it is the first of all that do
  have hbefore : startingAt before i = [] := by
    refine List.filter_eq_nil_iff.mpr fun n hn heq => ?_
    exact absurd (beq_iff_eq.mp heq) (Nat.ne_of_lt (h.before n hn))
  have hfirst : (startingAt ms i).head? = some m := by
    rw [h.startingAt_eq, hbefore, List.nil_append, startingAt, List.filter_cons, if_pos (beq_iff_eq.mpr hm)]
    rfl
  obtain ⟨-, front, back, hms, hfront⟩ := head?_startingAt.mp hfirst
  refine ⟨Nat.le_of_eq hm, fun n _ hle => hm.symm ▸ hle, front, back, hms, fun _ => hfront, fun hlt => ?_⟩
  exact absurd hm (Nat.ne_of_lt hlt)

/-- If the first mapping behind the place starts behind the offset, all of them do. -/
theorem Sides.lt_of_head (h : Sides ms i before (m :: behind)) (hm : m.source.start.offset ≠ i) :
    ∀ n ∈ m :: behind, i < n.source.start.offset := by
  have hsorted := pairwise_bySourceStart ms
  rw [h.all] at hsorted
  have hlt : i < m.source.start.offset :=
    Nat.lt_of_le_of_ne (h.behind m List.mem_cons_self) (Ne.symm hm)
  intro n hn
  rcases List.mem_cons.mp hn with rfl | hn
  · exact hlt
  · exact Nat.lt_of_lt_of_le hlt ((List.pairwise_cons.mp (List.pairwise_append.mp hsorted).2.1).1 n hn)

/-- The last mapping in front of the place is the nearest, if all others start behind the offset. -/
theorem Sides.isNearest_last (h : Sides ms i before behind) (hm : before.getLast? = some m)
    (hbehind : ∀ n ∈ behind, i < n.source.start.offset) : IsNearest ms i m := by
  obtain ⟨front, rfl⟩ := List.getLast?_eq_some_iff.mp hm
  have hlt : m.source.start.offset < i := h.before m (List.mem_append_right front (List.mem_singleton_self m))
  have hsorted := pairwise_bySourceStart ms
  rw [h.all] at hsorted
  have hgreatest (n : Mapping) (hn : n ∈ ms) (hle : n.source.start.offset ≤ i) :
      n.source.start.offset ≤ m.source.start.offset := by
    rcases h.mem_iff.mp hn with hn | hn
    · rcases List.mem_append.mp hn with hn | hn
      · exact (List.pairwise_append.mp (List.pairwise_append.mp hsorted).1).2.2 n hn m
          (List.mem_singleton_self m)
      · rw [List.mem_singleton.mp hn]
    · exact absurd hle (Nat.not_le_of_lt (hbehind n hn))
  -- of those that start where it does, none is behind the place, so it is the last of all
  have hnone : startingAt behind m.source.start.offset = [] := by
    refine List.filter_eq_nil_iff.mpr fun n hn heq => ?_
    have hin := hbehind n hn
    rw [beq_iff_eq.mp heq] at hin
    exact absurd hlt (Nat.not_lt_of_lt hin)
  have hlast : (startingAt ms m.source.start.offset).getLast? = some m := by
    rw [h.startingAt_eq, hnone, List.append_nil, startingAt, List.filter_append, List.filter_singleton,
      beq_self_eq_true]
    exact List.getLast?_concat ..
  obtain ⟨-, front, back, hms, hback⟩ := getLast?_startingAt.mp hlast
  exact ⟨Nat.le_of_lt hlt, hgreatest, front, back, hms, fun heq => absurd heq (Nat.ne_of_lt hlt), fun _ => hback⟩

/-- The search finds the nearest mapping, unless all mappings start behind the offset. -/
theorem nearest?_cases (ms : List Mapping) (i : Nat) :
    (∃ m, nearest? ms i = some m ∧ IsNearest ms i m) ∨
      nearest? ms i = none ∧ ∀ m ∈ ms, i < m.source.start.offset := by
  obtain ⟨before, behind, h, hnearest⟩ := exists_sides ms i
  have hlast (hbehind : ∀ n ∈ behind, i < n.source.start.offset) (heq : nearest? ms i = before.getLast?) :
      (∃ m, nearest? ms i = some m ∧ IsNearest ms i m) ∨
        nearest? ms i = none ∧ ∀ m ∈ ms, i < m.source.start.offset := by
    cases hm : before.getLast? with
    | some m => exact Or.inl ⟨m, heq.trans hm, h.isNearest_last hm hbehind⟩
    | none =>
        obtain rfl := List.getLast?_eq_none_iff.mp hm
        refine Or.inr ⟨heq.trans hm, fun n hn => hbehind n ?_⟩
        exact (h.mem_iff.mp hn).resolve_left List.not_mem_nil
  cases behind with
  | nil => exact hlast (List.forall_mem_nil _) hnearest
  | cons m behind =>
      by_cases hm : m.source.start.offset = i
      · exact Or.inl ⟨m, hnearest.trans (if_pos hm), h.isNearest_first hm⟩
      · exact hlast (h.lt_of_head hm) (hnearest.trans (if_neg hm))

theorem nearest?_eq_some_iff : nearest? ms i = some m ↔ IsNearest ms i m := by
  rcases nearest?_cases ms i with ⟨n, hn, hnearest⟩ | ⟨hnone, hbehind⟩
  · rw [hn, Option.some_inj]
    constructor
    · rintro rfl
      exact hnearest
    · exact hnearest.eq
  · rw [hnone]
    refine iff_of_false (Option.some_ne_none m).symm fun h => ?_
    exact absurd h.notBehind (Nat.not_le_of_lt (hbehind m h.mem))

theorem nearest?_eq_none_iff : nearest? ms i = none ↔ ∀ m ∈ ms, i < m.source.start.offset := by
  rcases nearest?_cases ms i with ⟨n, hn, hnearest⟩ | ⟨hnone, hbehind⟩
  · rw [hn]
    refine iff_of_false (Option.some_ne_none n) fun h => ?_
    exact absurd hnearest.notBehind (Nat.not_le_of_lt (h n hnearest.mem))
  · exact iff_of_true hnone hbehind

/-- The nearest mapping of an offset, and where the offset is moved to if no mapping touches it: to the end of
    what the nearest mapping leads to. -/
theorem nearest?_characterized (ms : List Mapping) (i : Nat) :
    (nearest? ms i = none ↔ ∀ m ∈ ms, i < m.source.start.offset) ∧
      (∀ m, nearest? ms i = some m ↔ IsNearest ms i m) ∧
      ∀ j, generatedIndex? ms i .inclusive = some j ↔
        generatedIndex? ms i .strict = some j ∨
          generatedIndex? ms i .strict = none ∧ ∃ m, IsNearest ms i m ∧ m.generated.stop = j := by
  refine ⟨nearest?_eq_none_iff, fun m => nearest?_eq_some_iff, fun j => ?_⟩
  have hinclusive : generatedIndex? ms i .inclusive =
      (generatedIndex? ms i .strict).orElse fun _ => (nearest? ms i).map (·.generated.stop) := rfl
  rw [hinclusive]
  cases generatedIndex? ms i .strict with
  | some k => simp
  | none => simp [nearest?_eq_some_iff]

end Mapping

/-! ## Ranges that share bytes with mappings -/

namespace Mapping

variable {source code : Text} {ms : List Mapping} {m first last : Mapping} {start stop i j k : Nat}

/-- Where the ends of a generated stretch lead to in the source, if it shares bytes with some mappings. An end
    that no mapping touches leads to the start of the first of them, or to the end of the last. -/
structure Leads (ms : List Mapping) (start stop : Nat) (first last : Mapping) (i j : Nat) : Prop where
  isFirst : (overlapping ms start stop).head? = some first
  isLast : (overlapping ms start stop).getLast? = some last
  left : i = (sourceIndex? ms start).getD first.source.start.offset
  right : j = (sourceIndex? ms stop).getD last.source.stop

theorem exists_leads (h : overlapping ms start stop ≠ []) :
    ∃ first last i j, Leads ms start stop first last i j :=
  ⟨_, _, _, _, List.head?_eq_some_head h, List.getLast?_eq_some_getLast h, rfl, rfl⟩

theorem sourceIndex?_eq_none (h : ∀ m ∈ ms, m.generated.touches k ≠ true) : sourceIndex? ms k = none := by
  refine Option.eq_none_iff_forall_ne_some.mpr fun i hi => ?_
  obtain ⟨m, hm, htouches⟩ := exists_of_sourceIndex? hi
  exact h m hm htouches

theorem mem_overlapping : m ∈ overlapping ms start stop ↔
    m ∈ ms ∧ m.generated.start.offset < stop ∧ start < m.generated.stop := by
  rw [overlapping, List.mem_filter, Bool.and_eq_true, decide_eq_true_eq, decide_eq_true_eq]

theorem Leads.mem_first (h : Leads ms start stop first last i j) : first ∈ overlapping ms start stop :=
  List.mem_of_head? h.isFirst

theorem Leads.mem_last (h : Leads ms start stop first last i j) : last ∈ overlapping ms start stop :=
  List.mem_of_getLast? h.isLast

/-- A stretch that shares bytes with mappings is moved to what its ends lead to, unless that runs backwards. -/
theorem Leads.sourceSpan?_eq (h : Leads ms start stop first last i j) :
    sourceSpan? ms start stop .inclusive = if i ≤ j then some (i, j) else none := by
  have hcovering : coveringSpan? ms start stop = if i ≤ j then some (i, j) else none := by
    rw [coveringSpan?, h.isFirst, h.isLast, h.left, h.right]
    rfl
  -- where both ends are touched, they lead to the same places as on their own
  have hstrict (x : Nat × Nat) (hx : strictSpan? ms start stop = some x) :
      (if i ≤ j then some (i, j) else none) = some x := by
    obtain ⟨i', hi, hx⟩ := Option.bind_eq_some_iff.mp hx
    obtain ⟨j', hj, hx⟩ := Option.bind_eq_some_iff.mp hx
    rw [h.left, h.right, hi, hj]
    exact hx
  rw [sourceSpan?, hcovering]
  cases hx : strictSpan? ms start stop with
  | none => rfl
  | some x => exact (hstrict x hx).symm

/-- The two ends of what a mapping links in the source are places. -/
theorem Link.isPlace_start (x : Link source code m) : (Buffer.mk source).IsPlace m.source.start.offset :=
  ⟨x.before, _, x.source_eq, x.source_start.symm, x.start_whole⟩

theorem Link.isPlace_stop (x : Link source code m) : (Buffer.mk source).IsPlace m.source.stop := by
  refine ⟨x.before ++ x.text, x.after, ?_, ?_, x.stop_whole⟩
  · rw [List.append_assoc]
    exact x.source_eq
  · rw [Text.size_append, Span.stop, x.source_start, x.source_length]

end Mapping

namespace Projection

open Buffer Mapping

variable {p : Projection} {document : Buffer} {r range : Range} {m first last : Mapping}
  {start stop i j : Nat}

/-- A range of a document encloses what a mapping leads to. -/
def Encloses (document : Buffer) (range : Range) (m : Mapping) : Prop :=
  ∃ ends ∈ document.span? range, ends.1 ≤ m.source.start.offset ∧ m.source.stop ≤ ends.2

instance : Decidable (Encloses document range m) :=
  inferInstanceAs (Decidable (∃ ends ∈ document.span? range, _))

theorem encloses_iff (hspan : document.span? range = some (i, j)) :
    Encloses document range m ↔ i ≤ m.source.start.offset ∧ m.source.stop ≤ j := by
  constructor
  · rintro ⟨ends, hends, hm⟩
    obtain rfl := Option.some.inj (hspan.symm.trans hends)
    exact hm
  · exact fun hm => ⟨(i, j), hspan, hm⟩

/-- The ends of a range lead to places of the document. -/
theorem IsLinked.isPlace_leads (hp : p.IsLinked document) (hspan : p.buffer.span? r = some (start, stop))
    (h : Leads p.mappings start stop first last i j) : document.IsPlace i ∧ document.IsPlace j := by
  obtain ⟨hstart, hstop, -⟩ := isPlace_of_span? hspan
  have hmoved {k n : Nat} (hk : p.buffer.IsPlace k) (hn : sourceIndex? p.mappings k = some n) :
      document.IsPlace n := by
    obtain ⟨m, hm, htouches⟩ := exists_of_sourceIndex? hn
    exact hp.isPlace hm hk htouches hn
  obtain ⟨x⟩ := hp.link first (mem_overlapping.mp h.mem_first).1
  obtain ⟨y⟩ := hp.link last (mem_overlapping.mp h.mem_last).1
  constructor
  · rw [h.left]
    cases hn : sourceIndex? p.mappings start with
    | none => exact x.isPlace_start
    | some n => exact hmoved hstart hn
  · rw [h.right]
    cases hn : sourceIndex? p.mappings stop with
    | none => exact y.isPlace_stop
    | some n => exact hmoved hstop hn

/-- What a range that shares bytes with mappings is moved to. -/
theorem IsLinked.sourceRange?_inclusive (hp : p.IsLinked document)
    (hspan : p.buffer.span? r = some (start, stop)) (h : Leads p.mappings start stop first last i j) :
    if i ≤ j then
      ∃ range, p.sourceRange? document r .inclusive = some range ∧ document.span? range = some (i, j)
    else p.sourceRange? document r .inclusive = none := by
  have hmoved : p.sourceRange? document r .inclusive =
      (if i ≤ j then some (i, j) else none).bind fun x => document.range? x.1 x.2 := by
    rw [sourceRange?, hspan, ← h.sourceSpan?_eq]
    rfl
  rw [hmoved]
  split
  · next hle =>
      obtain ⟨hi, hj⟩ := hp.isPlace_leads hspan h
      exact hi.exists_range? hj hle
  · rfl

end Projection

namespace Engine

open Mapping Projection

variable {e : Engine} {mayGoOn : Phase → Bool} {r : Request} {c : Compilation}

/-- A range of compiled C# that shares bytes with mappings is moved to the stretch of the document between what
    its ends lead to, if that does not run backwards, and to nothing otherwise; ends off the mappings lead to the
    start of the first of these mappings, and to the end of the last. So all of them are enclosed in a range
    exactly if none starts before the one place or stops behind the other. -/
theorem sourceRange?_encloses_iff (h : e.compileWhile mayGoOn r = .ok c) {range : Range} {start stop : Nat}
    (hspan : c.csharpProjection.buffer.span? range = some (start, stop))
    (hshares : overlapping c.csharpProjection.mappings start stop ≠ []) :
    ∃ first last i j, Leads c.csharpProjection.mappings start stop first last i j ∧
      ((∀ m ∈ c.csharpProjection.mappings, m.generated.touches start ≠ true ∧ m.generated.touches stop ≠ true) →
        i = first.source.start.offset ∧ j = last.source.stop) ∧
      (if i ≤ j then
        ∃ moved, c.csharpProjection.sourceRange? c.buffer range .inclusive = some moved ∧
          c.buffer.span? moved = some (i, j)
      else c.csharpProjection.sourceRange? c.buffer range .inclusive = none) ∧
      ((∃ moved, c.csharpProjection.sourceRange? c.buffer range .inclusive = some moved ∧
          ∀ m ∈ overlapping c.csharpProjection.mappings start stop, Encloses c.buffer moved m) ↔
        ∀ m ∈ overlapping c.csharpProjection.mappings start stop,
          i ≤ m.source.start.offset ∧ m.source.stop ≤ j) := by
  obtain ⟨first, last, i, j, hleads⟩ := exists_leads hshares
  have hmoved := (isLinked_csharpProjection h).sourceRange?_inclusive hspan hleads
  refine ⟨first, last, i, j, hleads, ?_, hmoved, ?_, ?_⟩
  · intro hoff
    rw [hleads.left, hleads.right, sourceIndex?_eq_none fun m hm => (hoff m hm).1,
      sourceIndex?_eq_none fun m hm => (hoff m hm).2]
    exact ⟨rfl, rfl⟩
  · rintro ⟨moved, hrange, hencloses⟩ m hm
    split at hmoved
    · obtain ⟨moved', hrange', hspan'⟩ := hmoved
      obtain rfl := Option.some.inj (hrange.symm.trans hrange')
      exact (encloses_iff hspan').mp (hencloses m hm)
    · exact nomatch hmoved.symm.trans hrange
  · intro hall
    obtain ⟨hstart, hstop⟩ := hall first hleads.mem_first
    have hle : i ≤ j := Nat.le_trans hstart (Nat.le_trans (Nat.le_add_right _ _) hstop)
    rw [if_pos hle] at hmoved
    obtain ⟨moved, hrange, hspan'⟩ := hmoved
    exact ⟨moved, hrange, fun m hm => (encloses_iff hspan').mpr (hall m hm)⟩

/-- A range of compiled C# around two expressions of a page is moved to one that encloses both. -/
theorem sourceRange?_encloses_iff_expressions :
    ∃ c, bare.compileWhile (fun _ => true) ⟨.anonymous "@a\n@using B\n@c", .legacy, []⟩ = .ok c ∧
      c.csharpProjection.buffer.span? ⟨⟨18, 0⟩, ⟨20, 20⟩⟩ = some (593, 667) ∧
      overlapping c.csharpProjection.mappings 593 667 ≠ [] ∧
      ∃ moved, c.csharpProjection.sourceRange? c.buffer ⟨⟨18, 0⟩, ⟨20, 20⟩⟩ .inclusive = some moved ∧
        ∀ m ∈ overlapping c.csharpProjection.mappings 593 667, Encloses c.buffer moved m := by
  have hfacts : (bare.compileWhile (fun _ => true)
      ⟨.anonymous "@a\n@using B\n@c", .legacy, []⟩).toOption.map (fun c =>
        (c.csharpProjection.buffer.span? ⟨⟨18, 0⟩, ⟨20, 20⟩⟩,
          (overlapping c.csharpProjection.mappings 593 667).map fun m => (m.source.start.offset, m.source.stop),
          sourceIndex? c.csharpProjection.mappings 593, sourceIndex? c.csharpProjection.mappings 667)) =
      some (some (593, 667), [(1, 2), (13, 14)], none, none) := by
    decide +kernel
  obtain ⟨c, hc, hfacts⟩ := exists_ok_of_map_toOption hfacts
  obtain ⟨hspan, hfacts⟩ := Prod.mk.inj hfacts
  obtain ⟨hshared, hfacts⟩ := Prod.mk.inj hfacts
  obtain ⟨hstart, hstop⟩ := Prod.mk.inj hfacts
  have hshares : overlapping c.csharpProjection.mappings 593 667 ≠ [] := by
    intro hnone
    rw [hnone] at hshared
    exact nomatch hshared
  obtain ⟨first, last, i, j, hleads, -, -, hiff⟩ := sourceRange?_encloses_iff hc hspan hshares
  have hi : i = 1 := by
    have hfirst := congrArg List.head? hshared
    rw [List.head?_map, hleads.isFirst] at hfirst
    rw [hleads.left, hstart]
    exact (Prod.mk.inj (Option.some.inj hfirst)).1
  have hj : j = 14 := by
    have hlast := congrArg List.getLast? hshared
    rw [List.getLast?_map, hleads.isLast] at hlast
    rw [hleads.right, hstop]
    exact (Prod.mk.inj (Option.some.inj hlast)).2
  refine ⟨c, hc, hspan, hshares, hiff.mpr fun m hm => ?_⟩
  have hpair : (m.source.start.offset, m.source.stop) ∈ [(1, 2), (13, 14)] :=
    hshared ▸ List.mem_map_of_mem hm
  simp only [List.mem_cons, Prod.mk.injEq, List.not_mem_nil, or_false] at hpair
  omega

/-- An import of a namespace is generated before the expressions of a page, wherever it stands. So a range
    around the import and the expression before it is moved to nothing, and one around the import and the
    expressions on both of its sides is moved to a range without the first. -/
theorem sourceRange?_not_enclosing :
    ∃ c, bare.compileWhile (fun _ => true) ⟨.anonymous "@a\n@using B\n@c", .legacy, []⟩ = .ok c ∧
      c.csharpProjection.buffer.span? ⟨⟨12, 0⟩, ⟨18, 20⟩⟩ = some (351, 613) ∧
      c.csharpProjection.buffer.span? ⟨⟨12, 0⟩, ⟨20, 20⟩⟩ = some (351, 667) ∧
      (∀ m ∈ c.csharpProjection.mappings, ∀ k ∈ [351, 613, 667], m.generated.touches k = false) ∧
      (overlapping c.csharpProjection.mappings 351 613).map (·.source.start.offset) = [10, 1] ∧
      c.csharpProjection.sourceRange? c.buffer ⟨⟨12, 0⟩, ⟨18, 20⟩⟩ .inclusive = none ∧
      (overlapping c.csharpProjection.mappings 351 667).map (·.source.start.offset) = [10, 1, 13] ∧
      c.csharpProjection.sourceRange? c.buffer ⟨⟨12, 0⟩, ⟨20, 20⟩⟩ .inclusive = some ⟨⟨1, 7⟩, ⟨2, 2⟩⟩ ∧
      ∃ m ∈ overlapping c.csharpProjection.mappings 351 667, ¬ Encloses c.buffer ⟨⟨1, 7⟩, ⟨2, 2⟩⟩ m := by
  exact exists_ok_of_decide (by decide +kernel)

end Engine

end RazorLang
