import Mathlib.Data.List.TakeWhile
import RazorLang.Text.Basic

/-!
# Where a text is cut

A text is cut behind what it starts with (`after?_eq_some`), before what it ends with (`before?_eq_some`), and around
the first or the last character of a sort (`splitFirst?_eq_some`, `splitLast?_append`). Each is stated as an equation
for the text that is cut, so that a result of a cut is read as the parts of its text and nothing else.
-/

namespace RazorLang.Text

variable {p : Char → Bool} {c : Char} {lead rest t tail u v : Text}

/-! ## At either end -/

theorem after?_eq_some : after? lead t = some rest ↔ t = lead ++ rest := by
  rw [after?]
  constructor
  · intro h
    split at h
    · next hlead =>
        obtain ⟨more, rfl⟩ := List.isPrefixOf_iff_prefix.mp hlead
        rw [List.drop_left] at h
        rw [Option.some.inj h]
    · exact nomatch h
  · rintro rfl
    rw [if_pos (List.isPrefixOf_iff_prefix.mpr (List.prefix_append lead rest)), List.drop_left]

theorem after?_append (lead t : Text) : after? lead (lead ++ t) = some t :=
  after?_eq_some.mpr rfl

theorem before?_eq_some : before? tail t = some lead ↔ t = lead ++ tail := by
  rw [before?]
  constructor
  · intro h
    split at h
    · next htail =>
        obtain ⟨more, rfl⟩ := List.isSuffixOf_iff_suffix.mp htail
        rw [List.length_append, Nat.add_sub_cancel, List.take_left] at h
        rw [Option.some.inj h]
    · exact nomatch h
  · rintro rfl
    rw [if_pos (List.isSuffixOf_iff_suffix.mpr (List.suffix_append lead tail)), List.length_append,
      Nat.add_sub_cancel, List.take_left]

theorem before?_append (t tail : Text) : before? tail (t ++ tail) = some t :=
  before?_eq_some.mpr rfl

/-! ## Around a character -/

theorem bne_of_not_mem (h : c ∉ t) : ∀ d ∈ t, (d != c) = true := by
  intro d hd
  rw [bne_iff_ne]
  rintro rfl
  exact h hd

theorem beq_of_not_mem (h : c ∉ t) : ∀ d ∈ t, (d == c) = false := by
  intro d hd
  rw [beq_eq_false_iff_ne]
  rintro rfl
  exact h hd

/-- The start of a text up to the first character that is not of a kind. -/
theorem takeWhile_append_cons (h : ∀ c ∈ t, p c = true) (hc : p c = false) (rest : Text) :
    (t ++ c :: rest).takeWhile p = t ∧ (t ++ c :: rest).dropWhile p = c :: rest := by
  constructor
  · rw [List.takeWhile_append_of_pos h, List.takeWhile_cons_of_neg (by simp [hc]), List.append_nil]
  · rw [List.dropWhile_append_of_pos h, List.dropWhile_cons_of_neg (by simp [hc])]

/-- The start of a text up to where characters of another kind follow, or none. -/
theorem takeWhile_append_of_head (h : ∀ c ∈ t, p c = true) (hrest : ∀ c ∈ rest.head?, p c = false) :
    (t ++ rest).takeWhile p = t := by
  cases rest with
  | nil => rw [List.append_nil, List.takeWhile_eq_self_iff.mpr h]
  | cons c rest => exact (takeWhile_append_cons h (hrest c rfl) rest).1

theorem splitFirst?_append (hc : p c = true) (hu : ∀ d ∈ u, p d = false) (v : Text) :
    splitFirst? p (u ++ c :: v) = some (u, v) := by
  have hstop := takeWhile_append_cons (p := fun d => !p d) (fun d hd => by rw [hu d hd]; rfl)
    (by rw [hc]; rfl : (!p c) = false) v
  rw [splitFirst?, hstop.1, hstop.2]

theorem splitFirst?_eq_none : splitFirst? p t = none ↔ ∀ d ∈ t, p d = false := by
  rw [splitFirst?]
  cases hdrop : t.dropWhile (fun d => !p d) with
  | nil =>
      refine iff_of_true rfl fun d hd => ?_
      have hnot := List.dropWhile_eq_nil_iff.mp hdrop d hd
      rwa [Bool.not_eq_true'] at hnot
  | cons c v =>
      refine iff_of_false (Option.some_ne_none _) fun h => ?_
      rw [List.dropWhile_eq_nil_iff.mpr fun d hd => by rw [h d hd]; rfl] at hdrop
      exact nomatch hdrop

/-- The first character of a sort has none before it. -/
theorem splitFirst?_eq_some :
    splitFirst? p t = some (u, v) ↔ ∃ c, t = u ++ c :: v ∧ p c = true ∧ ∀ d ∈ u, p d = false := by
  constructor
  · intro h
    rw [splitFirst?] at h
    split at h
    · exact nomatch h
    · next c v' hdrop =>
      obtain ⟨rfl, rfl⟩ := Prod.mk.inj (Option.some.inj h)
      refine ⟨c, ?_, ?_, fun d hd => ?_⟩
      · rw [← hdrop, List.takeWhile_append_dropWhile]
      · have hhead := List.head?_dropWhile_not (fun d => !p d) t
        rw [hdrop] at hhead
        simpa using hhead
      · simpa using List.mem_takeWhile_imp hd
  · rintro ⟨c, rfl, hc, hu⟩
    exact splitFirst?_append hc hu v

/-- The last character of a sort has none behind it. -/
theorem splitLast?_append (hc : p c = true) (t : Text) (hrest : ∀ d ∈ rest, p d = false) :
    splitLast? p (t ++ c :: rest) = some (t, rest) := by
  have hreverse : (t ++ c :: rest).reverse = rest.reverse ++ c :: t.reverse := by
    rw [List.reverse_append, List.reverse_cons, List.append_assoc]
    rfl
  rw [splitLast?, hreverse, splitFirst?_append hc fun d hd => hrest d (List.mem_reverse.mp hd), Option.map_some]
  dsimp only
  rw [List.reverse_reverse, List.reverse_reverse]

theorem splitLast?_eq_none : splitLast? p t = none ↔ ∀ d ∈ t, p d = false := by
  rw [splitLast?, Option.map_eq_none_iff, splitFirst?_eq_none]
  exact forall_congr' fun d => by rw [List.mem_reverse]

/-- A text has no character of a sort, or a last one. -/
theorem exists_splitLast (p : Char → Bool) (t : Text) :
    (∀ d ∈ t, p d = false) ∨ ∃ u c v, t = u ++ c :: v ∧ p c = true ∧ ∀ d ∈ v, p d = false := by
  cases hsplit : splitFirst? p t.reverse with
  | none => exact .inl fun d hd => splitFirst?_eq_none.mp hsplit d (List.mem_reverse.mpr hd)
  | some parts =>
      obtain ⟨c, hreverse, hc, hnone⟩ := splitFirst?_eq_some.mp hsplit
      refine .inr ⟨parts.2.reverse, c, parts.1.reverse, ?_, hc, fun d hd => hnone d (List.mem_reverse.mp hd)⟩
      rw [← List.reverse_reverse t, hreverse, List.reverse_append, List.reverse_cons, List.append_assoc]
      rfl

end RazorLang.Text
