import RazorLang.Proofs.TagHelper.ChildContent

/-!
# Namespaces that see one another

A namespace is a list of segments with dots between them, and two namespaces see one another if the segments of
one of them are the first segments of the other: `Resolution.isInScope_iff_segments`. So seeing goes both ways,
and names that are the same up to a place inside of a segment do not see one another.

The route: a name starts with the segments of another one exactly where it goes on behind them with a dot, or
not at all (`splitOn_prefix_splitOn`), and this is what is looked for in the longer of the two names
(`Resolution.isInScope_eq_true`).
-/

namespace RazorLang

open Text

variable {α : Type} {sep : α}

/-- Pieces are joined to others by what joins the pieces on each side. -/
theorem intercalate_append {xs ys : List (List α)} (hxs : xs ≠ []) (hys : ys ≠ []) :
    [sep].intercalate (xs ++ ys) = [sep].intercalate xs ++ sep :: [sep].intercalate ys := by
  induction xs with
  | nil => exact absurd rfl hxs
  | cons x xs ih =>
      cases xs with
      | nil =>
          rw [List.singleton_append, List.intercalate_cons_of_ne_nil hys, List.intercalate_singleton,
            List.append_assoc, List.singleton_append]
      | cons x' xs =>
          have hne : x' :: xs ++ ys ≠ [] := List.append_ne_nil_of_right_ne_nil _ hys
          rw [List.cons_append, List.intercalate_cons_of_ne_nil hne, ih (List.cons_ne_nil x' xs),
            List.intercalate_cons_of_ne_nil (List.cons_ne_nil x' xs)]
          simp only [List.append_assoc]

/-- The pieces of a list are the first pieces of another one if that is the same, or goes on behind a
    separator. -/
theorem splitOn_prefix_splitOn [BEq α] [LawfulBEq α] {u t : List α} :
    u.splitOn sep <+: t.splitOn sep ↔ t = u ∨ ∃ v, t = u ++ sep :: v := by
  constructor
  · rintro ⟨pieces, hpieces⟩
    have ht : t = [sep].intercalate (u.splitOn sep ++ pieces) := by
      rw [hpieces, List.intercalate_splitOn]
    cases pieces with
    | nil =>
        rw [List.append_nil, List.intercalate_splitOn] at ht
        exact Or.inl ht
    | cons piece pieces =>
        rw [intercalate_append (List.splitOn_ne_nil sep u) (List.cons_ne_nil piece pieces),
          List.intercalate_splitOn] at ht
        exact Or.inr ⟨_, ht⟩
  · rintro (rfl | ⟨v, rfl⟩)
    · exact List.prefix_rfl
    · rw [List.splitOn_append_cons_self]
      exact List.prefix_append _ _

namespace Resolution

variable {a b : Text}

/-- A namespace is another one, or goes on behind that and a dot. -/
def Encloses (a b : Text) : Prop := b = a ∨ ∃ v, b = a ++ '.' :: v

theorem encloses_append (a v : Text) : Encloses a (a ++ v) ↔ ∀ c ∈ v.head?, c = '.' := by
  rw [Encloses]
  cases v with
  | nil => simp
  | cons c v => simp

theorem Encloses.isPrefix (h : Encloses a b) : a <+: b := by
  obtain rfl | ⟨v, rfl⟩ := h
  · exact List.prefix_rfl
  · exact List.prefix_append a _

/-- Names that see one another are the same as far as both go. -/
theorem prefix_of_isInScope (h : isInScope a b = true) : a <+: b ∨ b <+: a := by
  unfold isInScope at h
  split at h
  next shorter longer hnames =>
    have hprefix : shorter <+: longer := by
      cases hafter : after? shorter longer with
      | none =>
          rw [hafter] at h
          exact nomatch h
      | some rest => exact ⟨rest, (after?_eq_some.mp hafter).symm⟩
    split at hnames
    · obtain ⟨rfl, rfl⟩ := Prod.mk.inj hnames
      exact Or.inl hprefix
    · obtain ⟨rfl, rfl⟩ := Prod.mk.inj hnames
      exact Or.inr hprefix

theorem isInScope_append_left (a v : Text) : isInScope (a ++ v) a = isInScope a (a ++ v) := by
  cases v with
  | nil => rw [List.append_nil]
  | cons c v =>
      have hlonger : Text.size a < Text.size (a ++ c :: v) := by
        rw [size_append]
        exact Nat.lt_add_of_pos_right (size_pos_of_ne_nil (List.cons_ne_nil c v))
      rw [isInScope, isInScope, if_neg (Nat.not_le_of_lt hlonger), if_pos (Nat.le_of_lt hlonger)]

theorem isInScope_eq_true : isInScope a b = true ↔ Encloses a b ∨ Encloses b a := by
  constructor
  · intro h
    rcases prefix_of_isInScope h with ⟨v, rfl⟩ | ⟨v, rfl⟩
    · exact Or.inl ((encloses_append a v).mpr ((isInScope_append a v).mp h))
    · rw [isInScope_append_left] at h
      exact Or.inr ((encloses_append b v).mpr ((isInScope_append b v).mp h))
  · rintro (h | h)
    · obtain ⟨v, rfl⟩ := h.isPrefix
      exact (isInScope_append a v).mpr ((encloses_append a v).mp h)
    · obtain ⟨v, rfl⟩ := h.isPrefix
      rw [isInScope_append_left]
      exact (isInScope_append b v).mpr ((encloses_append b v).mp h)

/-- Namespaces see one another exactly where the segments of one are the first segments of the other. Each
    sees itself, those that see it are those that it sees, and none are seen that are the same up to a place
    inside of a segment: where one of them ends and the other goes on, or where both go on. -/
theorem isInScope_iff_segments :
    (∀ a b : Text, isInScope a b = true ↔
        a.splitOn '.' <+: b.splitOn '.' ∨ b.splitOn '.' <+: a.splitOn '.') ∧
      (∀ a, isInScope a a = true) ∧ (∀ a b, isInScope a b = isInScope b a) ∧
      (∀ a c v, c ≠ '.' → isInScope a (a ++ c :: v) = false) ∧
      ∀ a c d v w, c ≠ d → isInScope (a ++ c :: v) (a ++ d :: w) = false := by
  have hsegments (a b : Text) : isInScope a b = true ↔
      a.splitOn '.' <+: b.splitOn '.' ∨ b.splitOn '.' <+: a.splitOn '.' := by
    rw [isInScope_eq_true, splitOn_prefix_splitOn, splitOn_prefix_splitOn, Encloses, Encloses]
  refine ⟨hsegments, ?_, ?_, ?_, ?_⟩
  · intro a
    exact (hsegments a a).mpr (Or.inl List.prefix_rfl)
  · intro a b
    rw [Bool.eq_iff_iff, hsegments a b, hsegments b a, or_comm]
  · intro a c v hc
    rw [← Bool.not_eq_true, isInScope_append]
    exact fun h => hc (h c rfl)
  · intro a c d v w hne
    rw [← Bool.not_eq_true]
    intro h
    have hcommon := prefix_of_isInScope h
    rw [List.prefix_append_right_inj, List.prefix_append_right_inj, List.cons_prefix_cons,
      List.cons_prefix_cons] at hcommon
    rcases hcommon with ⟨hcd, -⟩ | ⟨hdc, -⟩
    · exact hne hcd
    · exact hne hdc.symm

/-- Names that part inside of a segment, and one that goes on with empty segments. -/
theorem isInScope_iff_segments_shared :
    'F' ≠ '.' ∧ 'é' ≠ 'è' ∧ isInScope "App.Shared" "App.SharedFoo" = false ∧
      isInScope "App.é" "App.è" = false ∧ isInScope "App.é.." "App.é" = true := by
  obtain ⟨hsegments, -, -, hends, hdiffers⟩ := isInScope_iff_segments
  refine ⟨by decide, by decide, hends "App.Shared" 'F' "oo" (by decide), ?_, ?_⟩
  · exact hdiffers "App." 'é' 'è' [] [] (by decide)
  · refine (hsegments _ _).mpr (Or.inr ?_)
    decide

end Resolution

end RazorLang
