import Mathlib.Data.List.Basic
import Mathlib.Data.List.Infix

/-!
# What opens and what closes

In a list, elements of one sort open something and elements of another sort close it. `NestsBy` says that none
closes what is not open, and how much is left open; the first that closes nothing parts a list in one way only
(`NestsBy.eq_of_append`).
-/

namespace RazorLang

variable {α κ : Type} [DecidableEq κ] {sort : α → κ} {opener closer : κ} {xs ys : List α} {n : Nat} {x : α}

/-- The elements of a sort in a list. -/
def countSort (sort : α → κ) (k : κ) (xs : List α) : Nat := xs.countP fun x => sort x == k

@[simp] theorem countSort_nil (k : κ) : countSort sort k [] = 0 := rfl

theorem countSort_concat (k : κ) (xs : List α) (x : α) :
    countSort sort k (xs ++ [x]) = countSort sort k xs + if sort x = k then 1 else 0 := by
  rw [countSort, List.countP_append, List.countP_singleton]
  simp only [beq_iff_eq]
  rfl

/-- Each element that closes something has one before it that opens it, and `n` that open something are left
    without one that closes it. -/
structure NestsBy (sort : α → κ) (opener closer : κ) (xs : List α) (n : Nat) : Prop where
  nonneg : ∀ ys, ys <+: xs → countSort sort closer ys ≤ countSort sort opener ys
  total : countSort sort opener xs = countSort sort closer xs + n

namespace NestsBy

theorem nil : NestsBy sort opener closer [] 0 where
  nonneg ys hys := by rw [List.prefix_nil.mp hys, countSort_nil, countSort_nil]
  total := rfl

/-- Behind one more element, the number of those left open decides. -/
theorem concat (h : NestsBy sort opener closer xs n) {m : Nat}
    (hm : m + (if sort x = closer then 1 else 0) = n + if sort x = opener then 1 else 0) :
    NestsBy sort opener closer (xs ++ [x]) m := by
  have htotal : countSort sort opener (xs ++ [x]) = countSort sort closer (xs ++ [x]) + m := by
    rw [countSort_concat, countSort_concat, h.total]
    omega
  refine ⟨fun ys hys => ?_, htotal⟩
  rcases List.prefix_concat_iff.mp hys with rfl | hys
  · omega
  · exact h.nonneg ys hys

theorem opens (h : NestsBy sort opener closer xs n) (hne : opener ≠ closer) (hx : sort x = opener) :
    NestsBy sort opener closer (xs ++ [x]) (n + 1) := by
  refine h.concat ?_
  rw [if_neg (hx.trans_ne hne), if_pos hx]

theorem closes (h : NestsBy sort opener closer xs (n + 1)) (hne : opener ≠ closer) (hx : sort x = closer) :
    NestsBy sort opener closer (xs ++ [x]) n := by
  refine h.concat ?_
  rw [if_pos hx, if_neg (hx.trans_ne hne.symm)]

theorem other (h : NestsBy sort opener closer xs n) (hopener : sort x ≠ opener) (hcloser : sort x ≠ closer) :
    NestsBy sort opener closer (xs ++ [x]) n := by
  refine h.concat ?_
  rw [if_neg hcloser, if_neg hopener]

theorem others (h : NestsBy sort opener closer xs n) {ys : List α}
    (hys : ∀ x ∈ ys, sort x ≠ opener ∧ sort x ≠ closer) : NestsBy sort opener closer (xs ++ ys) n := by
  induction ys generalizing xs with
  | nil => rwa [List.append_nil]
  | cons x ys ih =>
      obtain ⟨hopener, hcloser⟩ := hys x (List.mem_cons_self ..)
      rw [← List.singleton_append, ← List.append_assoc]
      exact ih (h.other hopener hcloser) fun y hy => hys y (List.mem_cons_of_mem x hy)

/-- Nothing can be closed behind what opens nothing that is not closed. -/
theorem not_prefix (h : NestsBy sort opener closer xs 0) (hne : opener ≠ closer) (hx : sort x = closer)
    (h' : NestsBy sort opener closer ys n) : ¬ xs ++ [x] <+: ys := by
  intro hprefix
  have hle := h'.nonneg _ hprefix
  rw [countSort_concat, countSort_concat, h.total, if_pos hx, if_neg (hx.trans_ne hne.symm)] at hle
  omega

/-- There is only one first element that closes nothing. -/
theorem eq_of_append (h : NestsBy sort opener closer xs 0) (h' : NestsBy sort opener closer ys 0)
    (hne : opener ≠ closer) {y : α} {us vs : List α} (hx : sort x = closer) (hy : sort y = closer)
    (heq : xs ++ x :: us = ys ++ y :: vs) : xs = ys := by
  have hxs : xs ++ [x] <+: ys ++ y :: vs := ⟨us, by rw [← heq, List.append_assoc]; rfl⟩
  have hys : ys ++ [y] <+: ys ++ y :: vs := ⟨vs, by rw [List.append_assoc]; rfl⟩
  rcases List.prefix_or_prefix_of_prefix hxs hys with hprefix | hprefix
  · rcases List.prefix_concat_iff.mp hprefix with hsame | hshort
    · exact (List.append_inj' hsame rfl).1
    · exact absurd hshort (h.not_prefix hne hx h')
  · rcases List.prefix_concat_iff.mp hprefix with hsame | hshort
    · exact (List.append_inj' hsame rfl).1.symm
    · exact absurd hshort (h'.not_prefix hne hy h)

end NestsBy

end RazorLang
