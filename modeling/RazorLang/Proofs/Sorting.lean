import Mathlib.Data.List.Sort

/-!
# Stable sorts

A merge sort leaves what is in order as it is. So elements of which none comes before another, such as those
with one key, stay in the order in which they are given (`filter_mergeSort`). No other list in order has them
like this (`eq_of_filter_eq`), so this is all there is to say of a sort.
-/

namespace RazorLang

variable {α : Type} {le : α → α → Bool}

/-- Sorting keeps the order among elements that may stand in any order. -/
theorem filter_mergeSort (htrans : ∀ a b c, le a b = true → le b c = true → le a c = true)
    (htotal : ∀ a b, (le a b || le b a) = true) {p : α → Bool}
    (hp : ∀ a b, p a = true → p b = true → le a b = true) (l : List α) :
    (l.mergeSort le).filter p = l.filter p := by
  have hsame : (l.filter p).Pairwise fun a b => le a b = true :=
    List.pairwise_of_forall_mem_list fun a ha b hb =>
      hp a b (List.mem_filter.mp ha).2 (List.mem_filter.mp hb).2
  have hstable := (List.sublist_mergeSort htrans htotal hsame List.filter_sublist).filter p
  rw [List.filter_filter] at hstable
  simp only [Bool.and_self] at hstable
  refine (hstable.eq_of_length ?_).symm
  exact ((List.mergeSort_perm l le).filter p).length_eq.symm

/-- A list that is in order is known by the elements that may stand where one of them does, in their order. -/
theorem eq_of_filter_eq {l l' : List α} (hrefl : ∀ a, le a a = true)
    (hl : l.Pairwise fun a b => le a b = true) (hl' : l'.Pairwise fun a b => le a b = true)
    (hsame : ∀ a, l.filter (fun b => le a b && le b a) = l'.filter fun b => le a b && le b a) : l = l' := by
  have hmem {k k' : List α} (hsame : ∀ a, k.filter (fun b => le a b && le b a) =
      k'.filter fun b => le a b && le b a) {a : α} (ha : a ∈ k) : a ∈ k' := by
    have hfilter : a ∈ k.filter fun b => le a b && le b a := List.mem_filter.mpr ⟨ha, by simp [hrefl a]⟩
    rw [hsame a] at hfilter
    exact (List.mem_filter.mp hfilter).1
  induction l generalizing l' with
  | nil => exact (List.eq_nil_iff_forall_not_mem.mpr fun a ha => nomatch hmem (fun a => (hsame a).symm) ha).symm
  | cons a l ih =>
      cases l' with
      | nil => exact nomatch hmem hsame List.mem_cons_self
      | cons a' l' =>
          obtain ⟨hall, htail⟩ := List.pairwise_cons.mp hl
          obtain ⟨hall', htail'⟩ := List.pairwise_cons.mp hl'
          have hle : le a a' = true := by
            rcases List.mem_cons.mp (hmem (fun a => (hsame a).symm) (List.mem_cons_self (a := a'))) with rfl | ha'
            · exact hrefl a'
            · exact hall a' ha'
          have hge : le a' a = true := by
            rcases List.mem_cons.mp (hmem hsame (List.mem_cons_self (a := a))) with rfl | ha
            · exact hrefl a
            · exact hall' a ha
          -- both heads stand for one another, so each is the first element of its kind
          have hhead := hsame a
          rw [List.filter_cons_of_pos (by simp [hrefl a]), List.filter_cons_of_pos (by simp [hle, hge])] at hhead
          obtain ⟨rfl, -⟩ := List.cons.inj hhead
          refine congrArg (a :: ·) (ih htail htail' fun b => ?_)
          have hb := hsame b
          rw [List.filter_cons, List.filter_cons] at hb
          split at hb
          · exact (List.cons.inj hb).2
          · exact hb

section Key

variable {key : α → Nat} {i : Nat} {l : List α}

theorem key_trans (a b c : α) (hab : decide (key a ≤ key b) = true) (hbc : decide (key b ≤ key c) = true) :
    decide (key a ≤ key c) = true :=
  decide_eq_true (Nat.le_trans (of_decide_eq_true hab) (of_decide_eq_true hbc))

theorem key_total (a b : α) : (decide (key a ≤ key b) || decide (key b ≤ key a)) = true := by
  simpa using Nat.le_total (key a) (key b)

theorem pairwise_mergeSort_key (key : α → Nat) (l : List α) :
    (l.mergeSort fun a b => key a ≤ key b).Pairwise fun a b => key a ≤ key b :=
  (List.pairwise_mergeSort key_trans key_total l).imp of_decide_eq_true

/-- Sorting by a key keeps the order among elements with one key. -/
theorem filter_mergeSort_key (key : α → Nat) (k : Nat) (l : List α) :
    (l.mergeSort fun a b => key a ≤ key b).filter (key · == k) = l.filter (key · == k) := by
  refine filter_mergeSort key_trans key_total ?_ l
  intro a b ha hb
  exact decide_eq_true (Nat.le_of_eq ((beq_iff_eq.mp ha).trans (beq_iff_eq.mp hb).symm))

/-- In a list that is sorted by a key, the key of what is left behind the first elements below a bound is not
    below it. -/
theorem le_of_mem_dropWhile (hsorted : l.Pairwise fun a b => key a ≤ key b) {a : α}
    (ha : a ∈ l.dropWhile (key · < i)) : i ≤ key a := by
  induction l with
  | nil => exact nomatch ha
  | cons b l ih =>
      obtain ⟨hb, hl⟩ := List.pairwise_cons.mp hsorted
      rw [List.dropWhile_cons] at ha
      split at ha
      · exact ih hl ha
      · next hge =>
          have hib : i ≤ key b := by simpa using hge
          rcases List.mem_cons.mp ha with rfl | ha
          · exact hib
          · exact Nat.le_trans hib (hb a ha)

end Key

end RazorLang
