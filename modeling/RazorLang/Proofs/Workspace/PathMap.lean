import Mathlib.Data.List.Forall2
import RazorLang.Workspace.PathMap

/-!
# Facts about path maps

A map is a list, so there are two views of it: what a lookup gives, and which entries there are in which
order. The lookups after a change are `get?_set` and `get?_erase`. For the entries, a change is seen as a
list that is split at the path: a new path is put in between two parts, a path that is there has its value
exchanged, and an erased path leaves the two parts around it. The last two need that the map is sorted, so
that no path is there twice.
-/

namespace RazorLang

namespace Text

theorem compare_self (t : Text) : compare t t = .eq := by
  induction t with
  | nil => rfl
  | cons c t ih => rw [compare, ih, Nat.compare_eq_eq.mpr rfl, Ordering.then_eq]

theorem eq_of_compare {s t : Text} (h : compare s t = .eq) : s = t := by
  induction s generalizing t with
  | nil =>
      cases t with
      | nil => rfl
      | cons d t => exact nomatch h
  | cons c s ih =>
      cases t with
      | nil => exact nomatch h
      | cons d t =>
          obtain ⟨hhead, htail⟩ := Ordering.then_eq_eq.mp h
          rw [Char.toNat_inj.mp (Nat.compare_eq_eq.mp hhead), ih htail]

theorem compare_gt {s t : Text} (h : compare s t = .gt) : compare t s = .lt := by
  induction s generalizing t with
  | nil => cases t <;> exact nomatch h
  | cons c s ih =>
      cases t with
      | nil => rfl
      | cons d t =>
          show (Ord.compare d.toNat c.toNat).then (compare t s) = .lt
          rw [Ordering.then_eq_lt]
          rcases Ordering.then_eq_gt.mp h with hhead | ⟨hhead, htail⟩
          · exact Or.inl (Nat.compare_eq_lt.mpr (Nat.compare_eq_gt.mp hhead))
          · exact Or.inr ⟨Nat.compare_eq_eq.mpr (Nat.compare_eq_eq.mp hhead).symm, ih htail⟩

theorem compare_lt_trans {s t u : Text} (hst : compare s t = .lt) (htu : compare t u = .lt) :
    compare s u = .lt := by
  induction s generalizing t u with
  | nil =>
      cases u with
      | nil => cases t <;> exact nomatch htu
      | cons e u => rfl
  | cons c s ih =>
      cases t with
      | nil => exact nomatch hst
      | cons d t =>
          cases u with
          | nil => exact nomatch htu
          | cons e u =>
              show (Ord.compare c.toNat e.toNat).then (compare s u) = .lt
              rw [Ordering.then_eq_lt, Nat.compare_eq_lt, Nat.compare_eq_eq]
              have h1 := Ordering.then_eq_lt.mp hst
              have h2 := Ordering.then_eq_lt.mp htu
              rw [Nat.compare_eq_lt, Nat.compare_eq_eq] at h1 h2
              rcases h1 with h1 | ⟨h1, hst'⟩
              · rcases h2 with h2 | ⟨h2, -⟩
                · exact Or.inl (Nat.lt_trans h1 h2)
                · exact Or.inl (h2 ▸ h1)
              · rcases h2 with h2 | ⟨h2, htu'⟩
                · exact Or.inl (h1 ▸ h2)
                · exact Or.inr ⟨h1.trans h2, ih hst' htu'⟩

theorem ne_of_compare_lt {s t : Text} (h : compare s t = .lt) : s ≠ t := by
  rintro rfl
  rw [compare_self] at h
  exact nomatch h

end Text

namespace PathMap

variable {α : Type} {m : PathMap α} {path : Text} {a b : α}

/-! ## Lookups -/

theorem get?_cons (p q : Text) (a : α) (m : PathMap α) :
    get? ((p, a) :: m) q = if q = p then some a else get? m q := by
  rw [get?, List.lookup_cons]
  by_cases h : q = p
  · rw [if_pos h, beq_iff_eq.mpr h]
  · rw [if_neg h, beq_eq_false_iff_ne.mpr h]
    rfl

theorem get?_set (path q : Text) (a : α) (m : PathMap α) :
    get? (m.set path a) q = if q = path then some a else get? m q := by
  induction m with
  | nil => rw [set, get?_cons]
  | cons e m ih =>
      obtain ⟨p, b⟩ := e
      rw [set]
      cases hcmp : Text.compare path p with
      | lt => rw [get?_cons]
      | eq =>
          obtain rfl := Text.eq_of_compare hcmp
          rw [get?_cons, get?_cons]
          by_cases h : q = path
          · rw [if_pos h, if_pos h]
          · rw [if_neg h, if_neg h, if_neg h]
      | gt =>
          rw [get?_cons, ih, get?_cons]
          by_cases h : q = p
          · rw [if_pos h, if_pos h, if_neg (h ▸ (Text.ne_of_compare_lt (Text.compare_gt hcmp)))]
          · rw [if_neg h, if_neg h]

theorem get?_erase (m : PathMap α) (path q : Text) :
    get? (m.erase path) q = if q = path then none else get? m q := by
  induction m with
  | nil => rw [erase, List.filter_nil, get?, List.lookup_nil, ite_self]
  | cons e m ih =>
      obtain ⟨p, b⟩ := e
      rw [get?_cons, erase, List.filter_cons]
      by_cases hp : p = path
      · rw [if_neg (by simpa using hp), ← erase, ih, hp]
        by_cases h : q = path
        · rw [if_pos h, if_pos h]
        · rw [if_neg h, if_neg h, if_neg h]
      · rw [if_pos (by simpa using hp), get?_cons, ← erase, ih]
        by_cases h : q = p
        · rw [if_pos h, if_pos h, if_neg (h ▸ hp)]
        · rw [if_neg h, if_neg h]

theorem mem_of_get? (h : m.get? path = some a) : (path, a) ∈ m := by
  induction m with
  | nil => exact nomatch h
  | cons e m ih =>
      obtain ⟨p, b⟩ := e
      rw [get?_cons] at h
      by_cases hp : path = p
      · rw [if_pos hp] at h
        rw [hp, Option.some.inj h]
        exact List.mem_cons_self
      · rw [if_neg hp] at h
        exact List.mem_cons_of_mem _ (ih h)

theorem get?_ne_none (h : (path, a) ∈ m) : m.get? path ≠ none := by
  induction m with
  | nil => exact nomatch h
  | cons e m ih =>
      obtain ⟨p, b⟩ := e
      rw [get?_cons]
      by_cases hp : path = p
      · rw [if_pos hp]
        exact Option.some_ne_none _
      · rw [if_neg hp]
        refine ih (List.mem_of_ne_of_mem ?_ h)
        exact fun heq => hp (Prod.mk.inj heq).1

/-! ## Entries -/

/-- The paths of a map are in strict order. -/
def Sorted (m : PathMap α) : Prop := m.Pairwise fun e f => Text.compare e.1 f.1 = .lt

theorem mem_set {e : Text × α} (h : e ∈ m.set path a) : e = (path, a) ∨ e ∈ m := by
  induction m with
  | nil => exact Or.inl (List.mem_singleton.mp h)
  | cons f m ih =>
      rw [set] at h
      split at h
      · exact List.mem_cons.mp h
      · rcases List.mem_cons.mp h with h | h
        · exact Or.inl h
        · exact Or.inr (List.mem_cons_of_mem _ h)
      · rcases List.mem_cons.mp h with h | h
        · exact Or.inr (h ▸ List.mem_cons_self)
        · rcases ih h with h | h
          · exact Or.inl h
          · exact Or.inr (List.mem_cons_of_mem _ h)

/-- What is at other paths stays. -/
theorem mem_set_of_ne {e : Text × α} (he : e ∈ m) (hne : e.1 ≠ path) : e ∈ m.set path a := by
  induction m with
  | nil => exact absurd he List.not_mem_nil
  | cons f m ih =>
      rw [set]
      split
      · exact List.mem_cons_of_mem _ he
      · rename_i hcmp
        refine List.mem_cons_of_mem _ ((List.mem_cons.mp he).resolve_left ?_)
        rintro rfl
        exact hne (Text.eq_of_compare hcmp).symm
      · rcases List.mem_cons.mp he with rfl | he
        · exact List.mem_cons_self
        · exact List.mem_cons_of_mem _ (ih he)

theorem Sorted.set (h : m.Sorted) (path : Text) (a : α) : (m.set path a).Sorted := by
  induction m with
  | nil => exact List.pairwise_singleton _ _
  | cons e m ih =>
      obtain ⟨p, b⟩ := e
      obtain ⟨hhead, htail⟩ := List.pairwise_cons.mp h
      rw [PathMap.set]
      cases hcmp : Text.compare path p with
      | lt =>
          refine List.pairwise_cons.mpr ⟨?_, h⟩
          intro f hf
          rcases List.mem_cons.mp hf with rfl | hf
          · exact hcmp
          · exact Text.compare_lt_trans hcmp (hhead f hf)
      | eq =>
          obtain rfl := Text.eq_of_compare hcmp
          exact List.pairwise_cons.mpr ⟨hhead, htail⟩
      | gt =>
          refine List.pairwise_cons.mpr ⟨?_, ih htail⟩
          intro f hf
          rcases mem_set hf with rfl | hf
          · exact Text.compare_gt hcmp
          · exact hhead f hf

theorem Sorted.erase (h : m.Sorted) (path : Text) : (m.erase path).Sorted :=
  List.Pairwise.filter _ h

/-- A sorted map has at most one value under a path. -/
theorem Sorted.value_eq (h : m.Sorted) (ha : (path, a) ∈ m) (hb : (path, b) ∈ m) : a = b := by
  induction m with
  | nil => exact nomatch ha
  | cons e m ih =>
      obtain ⟨hhead, htail⟩ := List.pairwise_cons.mp h
      rcases List.mem_cons.mp ha with rfl | ha'
      · rcases List.mem_cons.mp hb with hb | hb
        · exact (Prod.mk.inj hb).2.symm
        · exact absurd rfl (Text.ne_of_compare_lt (hhead (path, b) hb))
      · rcases List.mem_cons.mp hb with rfl | hb
        · exact absurd rfl (Text.ne_of_compare_lt (hhead (path, a) ha'))
        · exact ih htail ha' hb

theorem Sorted.get?_eq_some (h : m.Sorted) (ha : (path, a) ∈ m) : m.get? path = some a := by
  cases hget : m.get? path with
  | none => exact absurd hget (get?_ne_none ha)
  | some b => rw [h.value_eq ha (mem_of_get? hget)]

/-- A value under a new path comes between two parts of the map. -/
theorem exists_set_of_get?_eq_none (h : m.get? path = none) (a : α) :
    ∃ before after, m = before ++ after ∧ m.set path a = before ++ (path, a) :: after := by
  induction m with
  | nil => exact ⟨[], [], rfl, rfl⟩
  | cons e m ih =>
      obtain ⟨p, b⟩ := e
      rw [get?_cons] at h
      by_cases hp : path = p
      · rw [if_pos hp] at h
        exact nomatch h
      · rw [if_neg hp] at h
        rw [set]
        cases hcmp : Text.compare path p with
        | lt => exact ⟨[], (p, b) :: m, rfl, rfl⟩
        | eq => exact absurd (Text.eq_of_compare hcmp) hp
        | gt =>
            obtain ⟨before, after, hm, hset⟩ := ih h
            exact ⟨(p, b) :: before, after, by rw [hm]; rfl, by rw [hset]; rfl⟩

/-- Where there is nothing at a path, setting it adds an entry. -/
theorem mem_set_of_get?_eq_none (h : m.get? path = none) {e : Text × α} :
    e ∈ m.set path a ↔ e = (path, a) ∨ e ∈ m := by
  obtain ⟨before, after, hsplit, hset⟩ := exists_set_of_get?_eq_none h a
  rw [hset, hsplit, List.mem_append, List.mem_cons, List.mem_append]
  exact or_left_comm

theorem mem_erase {e : Text × α} : e ∈ m.erase path ↔ e ∈ m ∧ e.1 ≠ path := by
  rw [erase, List.mem_filter, bne_iff_ne]

/-- The entries around a path of a sorted map have other paths. -/
theorem Sorted.exists_split (h : m.Sorted) (ha : (path, a) ∈ m) :
    ∃ before after, m = before ++ (path, a) :: after ∧
      (∀ e ∈ before, Text.compare path e.1 = .gt) ∧ ∀ e ∈ after, Text.compare path e.1 = .lt := by
  obtain ⟨before, after, rfl⟩ := List.append_of_mem ha
  obtain ⟨-, hafter, hbefore⟩ := List.pairwise_append.mp h
  refine ⟨before, after, rfl, ?_, (List.pairwise_cons.mp hafter).1⟩
  intro e he
  have hlt := hbefore e he _ List.mem_cons_self
  cases hcmp : Text.compare path e.1 with
  | gt => rfl
  | eq => exact absurd (Text.eq_of_compare hcmp).symm (Text.ne_of_compare_lt hlt)
  | lt => exact absurd rfl (Text.ne_of_compare_lt (Text.compare_lt_trans hcmp hlt))

/-- A value under a path that is there takes the place of the old one. -/
theorem Sorted.exists_set (h : m.Sorted) (ha : (path, a) ∈ m) (b : α) :
    ∃ before after, m = before ++ (path, a) :: after ∧
      m.set path b = before ++ (path, b) :: after ∧
      (∀ e ∈ before, e.1 ≠ path) ∧ ∀ e ∈ after, e.1 ≠ path := by
  obtain ⟨before, after, rfl, hbefore, hafter⟩ := h.exists_split ha
  refine ⟨before, after, rfl, ?_, ?_, ?_⟩
  · clear h ha
    induction before with
    | nil => rw [List.nil_append, PathMap.set, Text.compare_self]; rfl
    | cons e before ih =>
        rw [List.cons_append, PathMap.set, hbefore e List.mem_cons_self]
        exact congrArg (e :: ·) (ih fun f hf => hbefore f (List.mem_cons_of_mem _ hf))
  · intro e he
    exact Text.ne_of_compare_lt (Text.compare_gt (hbefore e he))
  · intro e he
    exact (Text.ne_of_compare_lt (hafter e he)).symm

/-- The entries before and after one value is exchanged correspond to each other. -/
theorem Sorted.forall₂_set {R : Text × α → Text × α → Prop} (h : m.Sorted) (ha : (path, a) ∈ m)
    (hsame : ∀ e : Text × α, e.1 ≠ path → R e e) (hnew : R (path, a) (path, b)) :
    List.Forall₂ R m (m.set path b) := by
  obtain ⟨before, after, hm, hset, hbefore, hafter⟩ := h.exists_set ha b
  rw [hset, hm]
  exact List.rel_append (List.forall₂_same.mpr fun e he => hsame e (hbefore e he))
    (List.Forall₂.cons hnew (List.forall₂_same.mpr fun e he => hsame e (hafter e he)))

/-- Only the paths matter for the order. -/
theorem Sorted.congr {m' : PathMap α} (h : m.Sorted)
    (hrel : List.Forall₂ (fun e e' => e'.1 = e.1) m m') : m'.Sorted := by
  have hpaths : m'.map Prod.fst = m.map Prod.fst := by
    clear h
    induction hrel with
    | nil => rfl
    | cons hhead htail ih => rw [List.map_cons, List.map_cons, hhead, ih]
  have hkeys : (m.map Prod.fst).Pairwise fun s t => Text.compare s t = .lt :=
    List.pairwise_map.mpr h
  rw [← hpaths] at hkeys
  exact List.pairwise_map.mp hkeys

/-- What is left without a path is what is around it. -/
theorem Sorted.exists_erase (h : m.Sorted) (ha : (path, a) ∈ m) :
    ∃ before after, m = before ++ (path, a) :: after ∧ m.erase path = before ++ after := by
  obtain ⟨before, after, hm, -, hbefore, hafter⟩ := h.exists_set ha a
  refine ⟨before, after, hm, ?_⟩
  rw [hm, PathMap.erase, List.filter_append, List.filter_cons_of_neg (by simp)]
  congr 1
  · exact List.filter_eq_self.mpr fun e he => by simpa using hbefore e he
  · exact List.filter_eq_self.mpr fun e he => by simpa using hafter e he

end PathMap

namespace PathSet

theorem mem_add {path q : Text} {s : PathSet} : q ∈ add path s ↔ q = path ∨ q ∈ s := by
  induction s with
  | nil => exact List.mem_cons
  | cons p s ih =>
      rw [add]
      cases hcmp : Text.compare path p with
      | lt => exact List.mem_cons
      | eq =>
          obtain rfl := Text.eq_of_compare hcmp
          rw [List.mem_cons]
          exact ⟨Or.inr, fun h => h.elim Or.inl id⟩
      | gt =>
          show q ∈ p :: add path s ↔ _
          rw [List.mem_cons, List.mem_cons, ih]
          exact or_left_comm

theorem mem_remove {path q : Text} {s : PathSet} : q ∈ remove s path ↔ q ∈ s ∧ q ≠ path := by
  rw [remove, List.mem_filter, bne_iff_ne]

end PathSet

end RazorLang
