import RazorLang.Proofs.Workspace.Reachability

/-!
# Importers are known

In every project state that can be reached, the index knows for each place exactly the documents that take
imports from it (`ProjectState.Reachable.importersOf_exact`). A document whose import is spelled like the
place where it is looked for is therefore an importer of it, and has another state after every change or
removal of the import (`ProjectState.Reachable.renewed_with_import`). The spelling matters: imports are found
whatever the case of their letters, the index is asked for the exact place, and a document may even be found
as an import of itself (`ProjectState.Reachable.not_renewed_otherCase`).
-/

namespace RazorLang

open DocumentState

namespace ProjectState

variable {m m' : Memory} {p p' : ProjectState} {path q : Text} {d i : DocumentState} {t : Transition}

namespace Transition

/-- The transition changes or removes the document at a path. -/
def Concerns (path : Text) : Transition → Prop
  | removeDocument q | setText q _ | changeText q _ | changeLoader q _ => q = path
  | addDocument _ _ | configure _ | discover _ => False

theorem Concerns.not_isIdle (ht : t.Concerns path) (hd : p.document? path = some d) :
    ¬ t.IsIdle p := by
  cases t with
  | addDocument _ _ | configure _ | discover _ => exact absurd ht id
  | removeDocument _ | setText _ _ | changeText _ _ | changeLoader _ _ =>
      obtain rfl := ht
      intro hidle
      exact nomatch hd.symm.trans hidle

theorem Concerns.touches (ht : t.Concerns path) (hrelated : IsRelated p path q) : t.Touches p q := by
  cases t with
  | addDocument _ _ | configure _ | discover _ => exact absurd ht id
  | removeDocument _ =>
      obtain rfl := ht
      exact hrelated
  | setText _ _ | changeText _ _ | changeLoader _ _ =>
      obtain rfl := ht
      exact Or.inr hrelated

theorem Concerns.eq_of_removeDocument (ht : t.Concerns path) (hremove : t = .removeDocument q) :
    q = path := by
  obtain rfl := hremove
  exact ht

end Transition

/-- A document that a transition touches and does not remove has another state afterwards. -/
theorem Turns.exists_replaces (h : Turns m m' p p' t) (hd : (path, d) ∈ p.documents)
    (htouches : t.Touches p path) (hstays : t ≠ .removeDocument path) :
    ∃ d', p'.document? path = some d' ∧ Replaces m m' d d' := by
  obtain ⟨f, hf, hrevision⟩ := (h.stays _ hd).resolve_left hstays
  refine ⟨f.2, h.tidy.sorted.get?_eq_some ?_, hrevision.replaces htouches⟩
  rw [← show f.1 = path from hrevision.path_eq]
  exact hf

theorem Tidy.mem {bound : Nat} (h : p.Tidy bound) (hd : d ∈ p.documents.values) :
    (d.host.path, d) ∈ p.documents := by
  obtain ⟨e, he, rfl⟩ := List.mem_map.mp hd
  rw [h.path_eq e he]
  exact he

namespace Reachable

/-- The index knows exactly the documents that take imports from a place, and no place without any; documents
    are kept under their own paths. -/
theorem importersOf_exact (h : Reachable m p) :
    (∀ target path, path ∈ p.importersOf target ↔
      ∃ d, (path, d) ∈ p.documents ∧ target ∈ d.host.importTargets) ∧
    (∀ e ∈ p.importers, e.2 ≠ []) ∧
    ∀ e ∈ p.documents, e.2.host.path = e.1 :=
  ⟨h.tidy.indexed, h.tidy.nonempty, h.tidy.path_eq⟩

/-- Where an import is spelled like the place where it is looked for, the document is known to import it, is
    another one, and has a new state after every change or removal of the import. -/
theorem renewed_with_import (h : Reachable m p) (hd : d ∈ p.documents.values)
    (hi : i ∈ p.importsOf d.host)
    (hspelled : ∀ target ∈ d.host.importTargets,
      Text.sameIgnoringCase i.host.target target = true → i.host.target = target) :
    d.host.path ∈ p.importersOf i.host.target ∧ i ≠ d ∧
      ∀ t : Transition, t.Concerns i.host.path → ∃ p' m' d', (t.next? p).run m = (some p', m') ∧
        p'.document? d.host.path = some d' ∧ m.next ≤ d'.serial ∧ d.serial < m.next := by
  have hmem : (d.host.path, d) ∈ p.documents := h.tidy.mem hd
  have hmem' : (i.host.path, i) ∈ p.documents := h.tidy.mem (mem_of_mem_importsOf hi)
  obtain ⟨target, htarget, hfound⟩ := List.mem_filterMap.mp hi
  have hsame : Text.sameIgnoringCase i.host.target target = true := by
    rw [at?] at hfound
    exact (List.find?_eq_some_iff_append.mp hfound).1
  obtain rfl := hspelled target htarget hsame
  have himporter : d.host.path ∈ p.importersOf i.host.target :=
    (h.tidy.indexed _ _).mpr ⟨d, hmem, htarget⟩
  have hne : i ≠ d := by
    rintro rfl
    exact i.host.target_notMem_importTargets htarget
  refine ⟨himporter, hne, ?_⟩
  intro t ht
  have hget : p.document? i.host.path = some i := h.tidy.sorted.get?_eq_some hmem'
  obtain ⟨p', m', hrun, hturns⟩ := h.tidy.turns (ht.not_isIdle hget)
  have hstays : t ≠ .removeDocument d.host.path := by
    intro hremove
    have hpath := ht.eq_of_removeDocument hremove
    exact hne (h.tidy.sorted.value_eq (hpath ▸ hmem') hmem)
  obtain ⟨d', hd', hreplaces⟩ :=
    hturns.exists_replaces hmem (ht.touches ⟨i, hget, himporter⟩) hstays
  exact ⟨p', m', d', hrun, hd', hreplaces.serial_ge, h.tidy.serial_lt _ hmem⟩

/-! ## A project with an import -/

/-- A project to which documents have been added at some places, and from which one has gone again. -/
def grown (targets : List Text) (gone : Text) : ProjectState × Memory :=
  let (p, m) := (create { path := "/a" }).run {}
  (p.evolve (targets.map (fun target => .addDocument (.new target target) (.known ⟨[], ⟨0⟩⟩)) ++
    [.removeDocument gone])).run m

theorem reachable_grown (targets : List Text) (gone : Text) :
    Reachable (grown targets gone).2 (grown targets gone).1 :=
  Reachable.evolve (Reachable.start {} { path := "/a" } {}) _

/-- The documents of a project with each of their imports. -/
def importPairs (p : ProjectState) : List (DocumentState × DocumentState) :=
  p.documents.values.flatMap fun d => (p.importsOf d.host).map (d, ·)

theorem mem_importPairs {pair : DocumentState × DocumentState} (h : pair ∈ importPairs p) :
    pair.1 ∈ p.documents.values ∧ pair.2 ∈ p.importsOf pair.1.host := by
  obtain ⟨d, hd, hpair⟩ := List.mem_flatMap.mp h
  obtain ⟨i, hi, rfl⟩ := List.mem_map.mp hpair
  exact ⟨hd, hi⟩

/-- Once one of two pages has gone, the other one is the only importer. -/
theorem importersOf_exact_grown :
    ∃ m p, Reachable m p ∧ p.importersOf "_ViewImports.cshtml" = ["P.cshtml"] ∧
      (∀ target path, path ∈ p.importersOf target ↔
        ∃ d, (path, d) ∈ p.documents ∧ target ∈ d.host.importTargets) ∧
      (∀ e ∈ p.importers, e.2 ≠ []) ∧
      ∀ e ∈ p.documents, e.2.host.path = e.1 := by
  have h := reachable_grown ["_ViewImports.cshtml", "P.cshtml", "Q.cshtml"] "Q.cshtml"
  exact ⟨_, _, h, by decide +kernel, importersOf_exact h⟩

/-- The page has a new state once its import is removed. -/
theorem renewed_with_import_removed :
    ∃ m p d i, Reachable m p ∧ d ∈ p.documents.values ∧ i ∈ p.importsOf d.host ∧
      (∀ target ∈ d.host.importTargets,
        Text.sameIgnoringCase i.host.target target = true → i.host.target = target) ∧
      ∃ p' m' d', (p.removeDocument? i.host.path).run m = (some p', m') ∧
        p'.document? d.host.path = some d' ∧ m.next ≤ d'.serial ∧ d.serial < m.next := by
  have h := reachable_grown ["_ViewImports.cshtml", "P.cshtml"] "Q.cshtml"
  have hany : (importPairs (grown ["_ViewImports.cshtml", "P.cshtml"] "Q.cshtml").1).any
      (fun pair => decide (∀ target ∈ pair.1.host.importTargets,
        Text.sameIgnoringCase pair.2.host.target target = true → pair.2.host.target = target)) =
      true := by
    decide +kernel
  obtain ⟨⟨d, i⟩, hpair, hspelled⟩ := List.any_eq_true.mp hany
  obtain ⟨hd, hi⟩ := mem_importPairs hpair
  exact ⟨_, _, d, i, h, hd, hi, of_decide_eq_true hspelled,
    (renewed_with_import h hd hi (of_decide_eq_true hspelled)).2.2 (.removeDocument i.host.path) rfl⟩

/-- With other letters in its path, an import of a page is not known to be one, and imports itself. -/
theorem not_renewed_otherCase :
    ∃ m p, Reachable m p ∧
      (∃ d ∈ p.documents.values, ∃ i ∈ p.importsOf d.host,
        d.host.path ∉ p.importersOf i.host.target) ∧
      ∃ d ∈ p.documents.values, d ∈ p.importsOf d.host := by
  have h := reachable_grown ["_viewimports.cshtml", "P.cshtml"] "Q.cshtml"
  have hunknown : (importPairs (grown ["_viewimports.cshtml", "P.cshtml"] "Q.cshtml").1).any
      (fun pair => decide (pair.1.host.path ∉
        (grown ["_viewimports.cshtml", "P.cshtml"] "Q.cshtml").1.importersOf pair.2.host.target)) =
      true := by
    decide +kernel
  have hself : (importPairs (grown ["_viewimports.cshtml", "P.cshtml"] "Q.cshtml").1).any
      (fun pair => decide (pair.1.host.path = pair.2.host.path)) = true := by
    decide +kernel
  obtain ⟨⟨d, i⟩, hpair, hunknown⟩ := List.any_eq_true.mp hunknown
  obtain ⟨hd, hi⟩ := mem_importPairs hpair
  obtain ⟨⟨x, y⟩, hpair', hsame⟩ := List.any_eq_true.mp hself
  obtain ⟨hx, hy⟩ := mem_importPairs hpair'
  have hpath : x.host.path = y.host.path := of_decide_eq_true hsame
  have hx' := h.tidy.mem hx
  have hy' := h.tidy.mem (mem_of_mem_importsOf hy)
  rw [hpath] at hx'
  have heq : x = y := h.tidy.sorted.value_eq hx' hy'
  rw [← heq] at hy
  exact ⟨_, _, h, ⟨d, hd, i, hi, of_decide_eq_true hunknown⟩, x, hx, hy⟩

end Reachable

end ProjectState

end RazorLang
