import RazorLang.Proofs.Editor.Buffer
import RazorLang.Proofs.Sorting

/-!
# Edits of a buffer

Edits that are made together all speak of the buffer before them. Main statement: `Buffer.edited?_characterized`
— they cannot be made exactly where a range does not exist or two of the spans overlap, and otherwise they leave
the buffer in which every span has given way to its text and all else is kept.

The route: `Buffer.Replaces` says what it is to carry out splices in their order, with all offsets in the text
before; it holds of what the splices make of a text (`Replaces.spliced_eq`), and splices that are apart can be
carried out at places of the buffer (`exists_replaces`). The order is a stable sort, and is known by being one
(`IsArranged.eq_mergeSort`).
-/

namespace RazorLang

open Text

section MapM

variable {α β : Type} {f : α → Option β} {xs : List α} {ys : List β}

theorem mapM_eq_some_iff : xs.mapM f = some ys ↔ List.Forall₂ (fun x y => f x = some y) xs ys := by
  induction xs generalizing ys with
  | nil =>
      rw [List.mapM_nil, List.forall₂_nil_left_iff]
      exact ⟨fun h => (Option.some.inj h).symm, fun h => h ▸ rfl⟩
  | cons x xs ih =>
      rw [List.mapM_cons]
      constructor
      · intro h
        obtain ⟨y, hy, h⟩ := Option.bind_eq_some_iff.mp h
        obtain ⟨ys, hys, h⟩ := Option.bind_eq_some_iff.mp h
        obtain rfl := Option.some.inj h
        exact .cons hy (ih.mp hys)
      · rintro (_ | ⟨hy, hys⟩)
        rw [hy, ih.mpr hys]
        rfl

theorem mapM_eq_none_iff : xs.mapM f = none ↔ ∃ x ∈ xs, f x = none := by
  induction xs with
  | nil => simp
  | cons x xs ih =>
      rw [List.mapM_cons, List.exists_mem_cons_iff, ← ih]
      cases f x with
      | none => exact iff_of_true rfl (Or.inl rfl)
      | some y =>
          cases xs.mapM f with
          | none => exact iff_of_true rfl (Or.inr rfl)
          | some ys => exact iff_of_false nofun (by simp)

end MapM

namespace Buffer

/-- Of two splices, the one that comes first ends before the other one starts. -/
def Splice.Apart (s t : Splice) : Prop :=
  (s.le t = true → s.stop ≤ t.start) ∧ (t.le s = true → t.stop ≤ s.start)

/-- The splice is of the bytes between two offsets. -/
def Splice.spans (i j : Nat) (s : Splice) : Bool := s.start == i && s.stop == j

/-- What edits replace, edit by edit. -/
def Resolves (b : Buffer) (edits : List Edit) (given : List Splice) : Prop :=
  List.Forall₂ (fun e s => b.span? e.range = some (s.start, s.stop) ∧ s.text = e.text) edits given

/-- Splices in the order of their starts and ends; those of the same bytes stay in the order in which they are
    given. -/
structure IsArranged (given ordered : List Splice) : Prop where
  perm : ordered.Perm given
  sorted : ordered.Pairwise fun s t => s.le t = true
  stable : ∀ i j, ordered.filter (Splice.spans i j) = given.filter (Splice.spans i j)

/-- A text, from the byte at an offset on, before and after splices in their order, whose offsets are all in the
    text before: what lies between two of them is kept, and the bytes of each give way to its text. -/
inductive Replaces : Nat → Text → List Splice → Text → Prop where
  | nil (at_ : Nat) (t : Text) : Replaces at_ t [] t
  | cons {at_ : Nat} {kept gone rest t : Text} {s : Splice} {ss : List Splice}
      (start : s.start = at_ + Text.size kept) (stop : s.stop = s.start + Text.size gone)
      (tail : Replaces s.stop rest ss t) : Replaces at_ (kept ++ gone ++ rest) (s :: ss) (kept ++ s.text ++ t)

/-- A buffer after edits that all speak of it before them: each span has given way to its text, and edits of the
    same span at one place have left their texts one behind the other. -/
def IsEdited (b : Buffer) (edits : List Edit) (b' : Buffer) : Prop :=
  ∃ given ordered, b.Resolves edits given ∧ IsArranged given ordered ∧ Replaces 0 b.text ordered b'.text

variable {b b' : Buffer} {edits : List Edit} {given ordered ss : List Splice} {s t : Splice} {u v w : Text}
  {at_ : Nat}

/-! ## The order of splices -/

theorem Splice.le_iff : s.le t = true ↔ s.start < t.start ∨ s.start = t.start ∧ s.stop ≤ t.stop := by
  simp [Splice.le]

theorem Splice.le_refl (s : Splice) : s.le s = true := Splice.le_iff.mpr (Or.inr ⟨rfl, Nat.le_refl _⟩)

theorem Splice.le_trans (r s t : Splice) (hrs : r.le s = true) (hst : s.le t = true) : r.le t = true := by
  rw [Splice.le_iff] at *
  omega

theorem Splice.le_total (s t : Splice) : (s.le t || t.le s) = true := by
  rw [Bool.or_eq_true, Splice.le_iff, Splice.le_iff]
  omega

/-- Splices that may stand in any order are of the same bytes. -/
theorem Splice.le_and_le (s t : Splice) : (s.le t && t.le s) = t.spans s.start s.stop := by
  rw [Bool.eq_iff_iff, Bool.and_eq_true, Splice.le_iff, Splice.le_iff, Splice.spans, Bool.and_eq_true, beq_iff_eq,
    beq_iff_eq]
  omega

theorem isArranged_mergeSort (given : List Splice) : IsArranged given (given.mergeSort Splice.le) where
  perm := List.mergeSort_perm given Splice.le
  sorted := List.pairwise_mergeSort Splice.le_trans Splice.le_total given
  stable i j := by
    refine filter_mergeSort Splice.le_trans Splice.le_total ?_ given
    intro s t hs ht
    rw [Splice.spans, Bool.and_eq_true, beq_iff_eq, beq_iff_eq] at hs ht
    rw [Splice.le_iff]
    omega

/-- There is one order in which given splices are carried out. -/
theorem IsArranged.eq_mergeSort (h : IsArranged given ordered) : ordered = given.mergeSort Splice.le := by
  have hsort := isArranged_mergeSort given
  refine eq_of_filter_eq Splice.le_refl h.sorted hsort.sorted fun s => ?_
  simp only [Splice.le_and_le]
  rw [show (fun t : Splice => Splice.spans s.start s.stop t) = Splice.spans s.start s.stop from rfl, h.stable,
    hsort.stable]

/-! ## Splices that are apart -/

theorem areApart_iff_pairwise (h : ∀ s ∈ ss, s.start ≤ s.stop) :
    areApart ss = true ↔ ss.Pairwise fun s t => s.stop ≤ t.start := by
  induction ss with
  | nil => simp [areApart]
  | cons s ss ih =>
      have ih := ih fun t ht => h t (List.mem_cons_of_mem s ht)
      cases ss with
      | nil => simp [areApart]
      | cons t rest =>
          have ht : t.start ≤ t.stop := h t (by simp)
          rw [areApart, Bool.and_eq_true, decide_eq_true_iff, ih, List.pairwise_cons (a := s)]
          refine and_congr_left fun hpairwise => ⟨fun hst r hr => ?_, fun hall => hall t List.mem_cons_self⟩
          rcases List.mem_cons.mp hr with rfl | hr
          · exact hst
          · have htr := (List.pairwise_cons.mp hpairwise).1 r hr
            omega

/-- Splices in their order are apart one behind the other exactly where no two of them overlap. -/
theorem IsArranged.areApart_iff (h : IsArranged given ordered) (hle : ∀ s ∈ given, s.start ≤ s.stop) :
    areApart ordered = true ↔ given.Pairwise Splice.Apart := by
  have hle' : ∀ s ∈ ordered, s.start ≤ s.stop := fun s hs => hle s (h.perm.mem_iff.mp hs)
  rw [areApart_iff_pairwise hle', ← h.perm.pairwise_iff fun hst => ⟨hst.2, hst.1⟩]
  have hfacts : ordered.Pairwise fun s t => s.le t = true ∧ s.start ≤ s.stop ∧ t.start ≤ t.stop :=
    h.sorted.and (List.pairwise_of_forall_mem_list fun s hs t ht => ⟨hle' s hs, hle' t ht⟩)
  refine ⟨fun hall => hall.imp₂ (fun s t hst hfacts => ?_) hfacts,
    fun hall => hall.imp₂ (fun s t hst hfacts => hst.1 hfacts.1) hfacts⟩
  obtain ⟨hle, hs, ht⟩ := hfacts
  rw [Splice.Apart, Splice.le_iff, Splice.le_iff]
  rw [Splice.le_iff] at hle
  omega

/-! ## Carrying out splices -/

theorem Replaces.spliced_eq {t t' : Text} (h : Replaces at_ t ss t') : spliced at_ t ss = t' := by
  induction h with
  | nil at_ t => rfl
  | @cons at_ kept gone rest t s ss start stop tail ih =>
      have hbefore : s.start - at_ = Text.size kept := by omega
      have hgone : s.stop - s.start = Text.size gone := by omega
      rw [spliced, hbefore, hgone, List.append_assoc, cut_append]
      dsimp only
      rw [cut_append, ih]

theorem Replaces.areApart {t t' : Text} (h : Replaces at_ t ss t') : areApart ss = true := by
  induction h with
  | nil at_ t => rfl
  | @cons at_ kept gone rest t s ss start stop tail ih =>
      cases tail with
      | nil => rfl
      | cons start' stop' tail' =>
          rw [Buffer.areApart, ih, Bool.and_true, decide_eq_true_iff, start']
          exact Nat.le_add_right _ _

/-- The text after one splice. -/
def Splice.apply (s : Splice) (t : Text) : Text := (cut s.start t).1 ++ s.text ++ (cut s.stop t).2

/-- The same comes of splices that are carried out one after the other, the last one first, so that none moves
    the bytes of those that are still to come. -/
theorem Replaces.foldr_apply_eq {t t' : Text} (h : Replaces at_ t ss t') (hu : Text.size u = at_) :
    ss.foldr Splice.apply (u ++ t) = u ++ t' := by
  induction h generalizing u with
  | nil at_ t => rfl
  | @cons at_ kept gone rest t s ss start stop tail ih =>
      have hbefore : Text.size (u ++ kept) = s.start := by rw [size_append, hu, start]
      have hgone : Text.size (u ++ kept ++ gone) = s.stop := by rw [size_append, hbefore, stop]
      have hlater := ih hgone
      simp only [List.append_assoc] at hlater
      rw [List.foldr_cons, List.append_assoc, hlater, Splice.apply, ← hgone, ← hbefore]
      have hstart := cut_append (u ++ kept) (gone ++ t)
      have hstop := cut_append (u ++ kept ++ gone) t
      simp only [List.append_assoc] at hstart hstop ⊢
      rw [hstart, hstop]
      simp only [List.append_assoc]

/-- Splices between places of a buffer can be carried out if they are apart. -/
theorem exists_replaces (htext : b.text = u ++ v)
    (hplaces : ∀ s ∈ ss, b.IsPlace s.start ∧ b.IsPlace s.stop ∧ s.start ≤ s.stop)
    (hapart : areApart ss = true) (hbehind : ∀ s ∈ ss.head?, Text.size u ≤ s.start) :
    ∃ w, Replaces (Text.size u) v ss w := by
  induction ss generalizing u v with
  | nil => exact ⟨v, .nil _ v⟩
  | cons s ss ih =>
      obtain ⟨hstart, hstop, hle⟩ := hplaces s List.mem_cons_self
      obtain ⟨before, gone, rest, hparts, hbefore, hgone, -, -⟩ := hstart.exists_parts hstop hle
      have hcut : u ++ v = before ++ (gone ++ rest) := by rw [← htext, hparts, List.append_assoc]
      obtain ⟨kept, rfl, rfl⟩ := exists_between_of_size_le hcut (hbefore ▸ hbehind s rfl)
      rw [size_append] at hbefore
      rw [size_append, size_append] at hgone
      have hnext : ∀ t ∈ ss.head?, Text.size (u ++ kept ++ gone) ≤ t.start := by
        intro t ht
        cases ss with
        | nil => exact nomatch ht
        | cons t' ss =>
            obtain rfl := Option.some.inj ht
            rw [areApart, Bool.and_eq_true, decide_eq_true_iff] at hapart
            rw [size_append, size_append, hgone]
            exact hapart.1
      have hrest : areApart ss = true := by
        cases ss with
        | nil => rfl
        | cons t ss => exact (Bool.and_eq_true_iff.mp hapart).2
      obtain ⟨w, hw⟩ := ih hparts (fun t ht => hplaces t (List.mem_cons_of_mem s ht)) hrest hnext
      rw [size_append, size_append, hgone] at hw
      refine ⟨kept ++ s.text ++ w, ?_⟩
      rw [← List.append_assoc]
      exact .cons hbefore.symm (by omega) hw

/-! ## Edits -/

theorem splice?_eq_some_iff {e : Edit} :
    b.splice? e = some s ↔ b.span? e.range = some (s.start, s.stop) ∧ s.text = e.text := by
  obtain ⟨start, stop, text⟩ := s
  rw [splice?]
  cases b.span? e.range with
  | none => simp
  | some span =>
      obtain ⟨i, j⟩ := span
      simp [eq_comm, and_assoc]

theorem splice?_eq_none_iff {e : Edit} : b.splice? e = none ↔ b.span? e.range = none := by
  rw [splice?]
  cases b.span? e.range <;> simp

theorem mapM_splice?_eq_some_iff : edits.mapM b.splice? = some given ↔ b.Resolves edits given := by
  rw [mapM_eq_some_iff, Resolves]
  simp only [splice?_eq_some_iff]

/-- What edits replace lies between places. -/
theorem Resolves.isPlace (h : b.Resolves edits given) (hs : s ∈ given) :
    b.IsPlace s.start ∧ b.IsPlace s.stop ∧ s.start ≤ s.stop := by
  induction h with
  | nil => exact nomatch hs
  | cons hspan _ ih =>
      rcases List.mem_cons.mp hs with rfl | hs
      · exact isPlace_of_span? hspan.1
      · exact ih hs

theorem Resolves.edited?_eq (h : b.Resolves edits given) :
    b.edited? edits = if areApart (given.mergeSort Splice.le) = true then
      some ⟨spliced 0 b.text (given.mergeSort Splice.le)⟩ else none := by
  rw [edited?, mapM_splice?_eq_some_iff.mpr h]
  rfl

/-- Edits that are given in the order of their spans. -/
theorem Resolves.edited?_eq_of_replaces (h : b.Resolves edits given) {t : Text}
    (hreplaces : Replaces 0 b.text given t) : b.edited? edits = some ⟨t⟩ := by
  have hle : ∀ s ∈ given, s.start ≤ s.stop := fun s hs => (h.isPlace hs).2.2
  have hapart := (areApart_iff_pairwise hle).mp hreplaces.areApart
  have hsorted : given.Pairwise fun s t => s.le t = true := by
    refine hapart.imp_of_mem fun {s t} hs ht hst => Splice.le_iff.mpr ?_
    have := hle s hs
    have := hle t ht
    omega
  rw [h.edited?_eq, List.mergeSort_of_pairwise hsorted, if_pos hreplaces.areApart, hreplaces.spliced_eq]

theorem edited?_eq_some_iff : b.edited? edits = some b' ↔ b.IsEdited edits b' := by
  constructor
  · intro h
    obtain ⟨given, hgiven, -⟩ := Option.bind_eq_some_iff.mp h
    have hgiven := mapM_splice?_eq_some_iff.mp hgiven
    rw [hgiven.edited?_eq] at h
    split at h
    · next hapart =>
        have harranged := isArranged_mergeSort given
        have hplaces : ∀ s ∈ given.mergeSort Splice.le, b.IsPlace s.start ∧ b.IsPlace s.stop ∧ s.start ≤ s.stop :=
          fun s hs => hgiven.isPlace (harranged.perm.mem_iff.mp hs)
        obtain ⟨w, hw⟩ := exists_replaces (List.nil_append b.text).symm hplaces hapart fun _ _ => Nat.zero_le _
        rw [size_nil] at hw
        obtain rfl := Option.some.inj h
        refine ⟨given, _, hgiven, harranged, ?_⟩
        rwa [hw.spliced_eq]
    · exact nomatch h
  · rintro ⟨given, ordered, hgiven, harranged, hreplaces⟩
    rw [hgiven.edited?_eq, ← harranged.eq_mergeSort, if_pos hreplaces.areApart, hreplaces.spliced_eq]

theorem edited?_eq_none_iff : b.edited? edits = none ↔
    (∃ e ∈ edits, b.span? e.range = none) ∨ ∃ given, b.Resolves edits given ∧ ¬ given.Pairwise Splice.Apart := by
  have hnone : edits.mapM b.splice? = none ↔ ∃ e ∈ edits, b.span? e.range = none := by
    simp only [mapM_eq_none_iff, splice?_eq_none_iff]
  rw [← hnone]
  cases hgiven : edits.mapM b.splice? with
  | none =>
      rw [edited?, hgiven]
      exact iff_of_true rfl (Or.inl rfl)
  | some given =>
      have hresolves := mapM_splice?_eq_some_iff.mp hgiven
      have hapart := (isArranged_mergeSort given).areApart_iff fun s hs => (hresolves.isPlace hs).2.2
      rw [hresolves.edited?_eq]
      constructor
      · intro h
        refine Or.inr ⟨given, hresolves, fun hpairwise => ?_⟩
        rw [if_pos (hapart.mpr hpairwise)] at h
        exact nomatch h
      · rintro (h | ⟨given', hresolves', hoverlap⟩)
        · exact nomatch h
        · have hsame : some given' = some given := (mapM_splice?_eq_some_iff.mpr hresolves').symm.trans hgiven
          obtain rfl := Option.some.inj hsame
          rw [if_neg fun h => hoverlap (hapart.mp h)]

/-- The buffer after edits is what making them one at a time leaves, if the last one is made first. -/
theorem IsEdited.eq_foldr (h : b.IsEdited edits b') (hgiven : b.Resolves edits given) :
    b'.text = (given.mergeSort Splice.le).foldr Splice.apply b.text := by
  obtain ⟨given', ordered, hgiven', harranged, hreplaces⟩ := h
  have hsame : some given' = some given :=
    (mapM_splice?_eq_some_iff.mpr hgiven').symm.trans (mapM_splice?_eq_some_iff.mpr hgiven)
  obtain rfl := Option.some.inj hsame
  rw [← harranged.eq_mergeSort]
  exact (hreplaces.foldr_apply_eq size_nil).symm

/-- Edits cannot be made together exactly where one of the ranges does not exist or two of the spans overlap.
    Otherwise the buffer after them is the one in which each span has given way to its text. -/
theorem edited?_characterized (b : Buffer) (edits : List Edit) :
    (b.edited? edits = none ↔ (∃ e ∈ edits, b.span? e.range = none) ∨
        ∃ given, b.Resolves edits given ∧ ¬ given.Pairwise Splice.Apart) ∧
      ∀ b', b.edited? edits = some b' ↔ b.IsEdited edits b' :=
  ⟨edited?_eq_none_iff, fun _ => edited?_eq_some_iff⟩

/-- Insertions around a span that is replaced, two of them at one place. -/
example : (Buffer.mk "é𝄞x".toList).edited?
    [⟨⟨⟨0, 3⟩, ⟨0, 3⟩⟩, "a"⟩, ⟨⟨⟨0, 1⟩, ⟨0, 3⟩⟩, "-"⟩, ⟨⟨⟨0, 3⟩, ⟨0, 3⟩⟩, "b"⟩] = some ⟨"é-abx".toList⟩ := by
  cbv

end Buffer

end RazorLang
