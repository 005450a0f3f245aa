import Mathlib.Data.List.Forall2
import RazorLang.Proofs.Workspace.PathMap
import RazorLang.Workspace.ProjectState

/-!
# Where imports are found

The imports of a document are found by their places, whatever the case of letters, while the documents to
renew are found by the exact places that are kept as a map from places to importers. The two agree where a
project `ImportsExactly`.

The imports of a document stay the same as long as the documents that they are stay the same
(`ProjectState.importsOf_rel`, `ProjectState.importsOf_eq_of_insert`), and the map of importers is right
after every change of the documents (`Indexed.add`, `Indexed.remove`).
-/

namespace RazorLang

namespace ProjectState

variable {p q : ProjectState} {h : HostDocument}

/-! ## Finding imports -/

theorem mem_of_at? {target : Text} {d : DocumentState} (hd : p.at? target = some d) :
    d ∈ p.documents.values :=
  List.mem_of_find?_eq_some hd

theorem mem_of_mem_importsOf {i : DocumentState} (hi : i ∈ p.importsOf h) :
    i ∈ p.documents.values := by
  obtain ⟨target, -, htarget⟩ := List.mem_filterMap.mp hi
  exact mem_of_at? htarget

/-- Documents that correspond to each other are found under the same places. -/
theorem at?_rel {R : DocumentState → DocumentState → Prop} (hR : ∀ d d', R d d' → d'.host = d.host)
    (hrel : List.Forall₂ (fun e e' => R e.2 e'.2) p.documents q.documents) (target : Text) :
    (p.at? target = none ∧ q.at? target = none) ∨
      ∃ d d', p.at? target = some d ∧ q.at? target = some d' ∧ R d d' := by
  rw [at?, at?, PathMap.values, PathMap.values]
  generalize p.documents = documents at hrel ⊢
  generalize q.documents = documents' at hrel ⊢
  induction hrel with
  | nil => exact Or.inl ⟨rfl, rfl⟩
  | cons hhead htail ih =>
      next e e' l l' =>
        rw [List.map_cons, List.map_cons, List.find?_cons, List.find?_cons, hR _ _ hhead]
        cases hsame : Text.sameIgnoringCase e.2.host.target target with
        | true => exact Or.inr ⟨e.2, e'.2, rfl, rfl, hhead⟩
        | false => exact ih

/-- Where documents correspond to each other, so do the imports. -/
theorem importsOf_rel {R : DocumentState → DocumentState → Prop}
    (hR : ∀ d d', R d d' → d'.host = d.host)
    (hrel : List.Forall₂ (fun e e' => R e.2 e'.2) p.documents q.documents) (h : HostDocument) :
    List.Forall₂ R (p.importsOf h) (q.importsOf h) := by
  rw [importsOf, importsOf]
  induction h.importTargets with
  | nil => exact List.Forall₂.nil
  | cons target targets ih =>
      rw [List.filterMap_cons, List.filterMap_cons]
      rcases at?_rel hR hrel target with ⟨hp, hq⟩ | ⟨d, d', hp, hq, hd⟩
      · rw [hp, hq]
        exact ih
      · rw [hp, hq]
        exact List.Forall₂.cons hd ih

/-- A further document that is none of the imports makes no difference to them. -/
theorem importsOf_eq_of_insert {before after : List DocumentState} {x : DocumentState}
    (hp : p.documents.values = before ++ after) (hq : q.documents.values = before ++ x :: after)
    (hx : x ∉ q.importsOf h) : q.importsOf h = p.importsOf h := by
  refine List.filterMap_congr ?_
  intro target htarget
  have hne : q.at? target ≠ some x := fun hsome => hx (List.mem_filterMap.mpr ⟨target, htarget, hsome⟩)
  rw [at?, hq, List.find?_append, List.find?_cons] at hne
  rw [at?, at?, hp, hq, List.find?_append, List.find?_append, List.find?_cons]
  cases hsame : Text.sameIgnoringCase x.host.target target with
  | false => rfl
  | true =>
      rw [hsame] at hne
      cases hfind : before.find? fun d => Text.sameIgnoringCase d.host.target target with
      | some d => rfl
      | none =>
          rw [hfind] at hne
          exact absurd rfl hne

end ProjectState

/-! ## The map of importers -/

/-- The map of importers of a project says which documents take imports from which place. -/
def Indexed (documents : PathMap DocumentState) (importers : PathMap PathSet) : Prop :=
  ∀ target path, path ∈ (importers.get? target).getD [] ↔
    ∃ d, (path, d) ∈ documents ∧ target ∈ d.host.importTargets

namespace Indexed

open ProjectState

variable {documents documents' : PathMap DocumentState} {importers : PathMap PathSet} {path : Text}
  {d : DocumentState}

/-- A project without documents has nothing to say of imports. -/
theorem nil : Indexed [] [] := fun _ _ =>
  ⟨fun hpath => absurd hpath List.not_mem_nil, fun ⟨_, hd, _⟩ => absurd hd List.not_mem_nil⟩

theorem mem_addImporter {target target' q : Text} :
    q ∈ ((addImporter path importers target).get? target').getD [] ↔
      (q = path ∧ target' = target) ∨ q ∈ (importers.get? target').getD [] := by
  rw [addImporter, PathMap.get?_set]
  by_cases ht : target' = target
  · rw [if_pos ht, ht, Option.getD_some, PathSet.mem_add]
    simp
  · rw [if_neg ht]
    simp [ht]

theorem mem_foldl_addImporter {targets : List Text} {target q : Text} :
    q ∈ ((targets.foldl (addImporter path) importers).get? target).getD [] ↔
      (q = path ∧ target ∈ targets) ∨ q ∈ (importers.get? target).getD [] := by
  induction targets generalizing importers with
  | nil => simp
  | cons t targets ih =>
      rw [List.foldl_cons, ih, mem_addImporter, List.mem_cons, ← or_assoc, ← and_or_left,
        or_comm (a := target = t)]

theorem mem_removeImporter {target target' q : Text} :
    q ∈ ((removeImporter path importers target).get? target').getD [] ↔
      q ∈ (importers.get? target').getD [] ∧ ¬ (q = path ∧ target' = target) := by
  rw [removeImporter]
  cases hget : importers.get? target with
  | none =>
      refine ⟨?_, And.left⟩
      intro hq
      refine ⟨hq, ?_⟩
      rintro ⟨-, rfl⟩
      rw [hget] at hq
      exact nomatch hq
  | some paths =>
      have hmem : q ∈ PathSet.remove paths path ↔ _ := PathSet.mem_remove
      dsimp only
      cases hremove : PathSet.remove paths path with
      | nil =>
          rw [hremove] at hmem
          rw [PathMap.get?_erase]
          by_cases ht : target' = target
          · rw [if_pos ht, ht, hget]
            simpa using hmem
          · rw [if_neg ht]
            simp [ht]
      | cons r rest =>
          rw [hremove] at hmem
          rw [PathMap.get?_set]
          by_cases ht : target' = target
          · rw [if_pos ht, ht, hget]
            simpa using hmem
          · rw [if_neg ht]
            simp [ht]

theorem mem_foldl_removeImporter {targets : List Text} {target q : Text} :
    q ∈ ((targets.foldl (removeImporter path) importers).get? target).getD [] ↔
      q ∈ (importers.get? target).getD [] ∧ ¬ (q = path ∧ target ∈ targets) := by
  induction targets generalizing importers with
  | nil => simp
  | cons t targets ih =>
      rw [List.foldl_cons, ih, mem_removeImporter, List.mem_cons, and_assoc, ← not_or, ← and_or_left]

theorem add (hindex : Indexed documents importers) (hnew : documents.get? path = none)
    (d : DocumentState) : Indexed (documents.set path d)
      (d.host.importTargets.foldl (addImporter path) importers) := by
  intro target q
  rw [mem_foldl_addImporter, hindex target q]
  constructor
  · rintro (⟨rfl, ht⟩ | ⟨e, he, ht⟩)
    · exact ⟨d, (PathMap.mem_set_of_get?_eq_none hnew).mpr (Or.inl rfl), ht⟩
    · exact ⟨e, (PathMap.mem_set_of_get?_eq_none hnew).mpr (Or.inr he), ht⟩
  · rintro ⟨e, he, ht⟩
    rcases PathMap.mem_set he with he | he
    · obtain ⟨rfl, rfl⟩ := Prod.mk.inj he
      exact Or.inl ⟨rfl, ht⟩
    · exact Or.inr ⟨e, he, ht⟩

theorem remove (hindex : Indexed documents importers) (hsorted : documents.Sorted)
    (hd : (path, d) ∈ documents) : Indexed (documents.erase path)
      (d.host.importTargets.foldl (removeImporter path) importers) := by
  intro target q
  rw [mem_foldl_removeImporter, hindex target q]
  constructor
  · rintro ⟨⟨e, he, ht⟩, hother⟩
    refine ⟨e, PathMap.mem_erase.mpr ⟨he, ?_⟩, ht⟩
    rintro rfl
    obtain rfl := hsorted.value_eq he hd
    exact hother ⟨rfl, ht⟩
  · rintro ⟨e, he, ht⟩
    obtain ⟨he, hne⟩ := PathMap.mem_erase.mp he
    exact ⟨⟨e, he, ht⟩, fun h => hne h.1⟩

/-- Only paths and hosts matter. -/
theorem congr (hindex : Indexed documents importers)
    (hrel : List.Forall₂ (fun e e' => e'.1 = e.1 ∧ e'.2.host = e.2.host) documents documents') :
    Indexed documents' importers := by
  intro target path
  rw [hindex target path]
  clear hindex
  induction hrel with
  | nil => rfl
  | cons hhead htail ih =>
      next e e' l l' =>
        obtain ⟨hpath, hhost⟩ := hhead
        have hsplit (e : Text × DocumentState) (l : PathMap DocumentState) :
            (∃ d, (path, d) ∈ e :: l ∧ target ∈ d.host.importTargets) ↔
              (path = e.1 ∧ target ∈ e.2.host.importTargets) ∨
                ∃ d, (path, d) ∈ l ∧ target ∈ d.host.importTargets := by
          constructor
          · rintro ⟨d, hd, ht⟩
            rcases List.mem_cons.mp hd with rfl | hd
            · exact Or.inl ⟨rfl, ht⟩
            · exact Or.inr ⟨d, hd, ht⟩
          · rintro (⟨rfl, ht⟩ | ⟨d, hd, ht⟩)
            · exact ⟨e.2, List.mem_cons_self, ht⟩
            · exact ⟨d, List.mem_cons_of_mem _ hd, ht⟩
        rw [hsplit, hsplit, ih, hpath, hhost]

/-- A document that does not take imports from a place takes none from documents that do. -/
theorem not_mem_of_subset (hindex : Indexed documents importers) (hsorted : documents.Sorted)
    (hd : (path, d) ∈ documents) {target q : Text} {i : DocumentState} (hi : (q, i) ∈ documents)
    (hsubset : ∀ t ∈ i.host.importTargets, t ∈ d.host.importTargets)
    (hpath : path ∉ (importers.get? target).getD []) : q ∉ (importers.get? target).getD [] := by
  intro hq
  obtain ⟨e, he, ht⟩ := (hindex target q).mp hq
  obtain rfl := hsorted.value_eq he hi
  exact hpath ((hindex target path).mpr ⟨d, hd, hsubset target ht⟩)

end Indexed

/-- Every import of a document of the project is found under its exact place, and takes imports itself only
    from places where the document does too. -/
def ProjectState.ImportsExactly (p : ProjectState) : Prop :=
  ∀ d ∈ p.documents.values, ∀ i ∈ p.importsOf d.host, i.host.target ∈ d.host.importTargets ∧
    ∀ target ∈ i.host.importTargets, target ∈ d.host.importTargets

instance (p : ProjectState) : Decidable p.ImportsExactly :=
  inferInstanceAs (Decidable (∀ d ∈ p.documents.values, ∀ i ∈ p.importsOf d.host,
    i.host.target ∈ d.host.importTargets ∧
      ∀ target ∈ i.host.importTargets, target ∈ d.host.importTargets))

end RazorLang
