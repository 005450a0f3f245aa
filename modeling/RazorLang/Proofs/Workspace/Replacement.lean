import RazorLang.Proofs.Workspace.Renewal

/-!
# Replacing states of documents, whatever their texts are

`ProjectState.Renewal` follows the texts of documents through a change, which asks for loaders that always
say the same. What happens to the states themselves does not depend on texts: a state is kept, or a state
with a new serial takes its place, of which nothing is known yet but the latest state that was asked for
output (`DocumentState.Replaces`). This holds for every operation that makes a state from another one
(`DocumentState.IsReplacement`), and also for several of them one after the other (`Replaces.trans`), so it
can be said of all documents of a project at once (`ProjectState.Revision`). Of a document that is only in
other surroundings more is known: its loader and its loaded text are handed on (`DocumentState.Refreshes`,
`ProjectState.Refresh`).
-/

namespace RazorLang

namespace DocumentState

variable {m m' m₀ m₁ : Memory} {d d' d₁ : DocumentState}

/-- A state that takes the place of another one. -/
structure Replaces (m m' : Memory) (d d' : DocumentState) : Prop where
  host_eq : d'.host = d.host
  serial_ge : m.next ≤ d'.serial
  serial_lt : d'.serial < m'.next
  isRequested : (m'.findings d'.serial).isRequested = false
  output : (m'.findings d'.serial).output = none
  baseline : (m'.findings d'.serial).baseline = d.nextBaseline m

theorem nextBaseline_extend (h : m.Extends m') (hd : d.serial < m.next) :
    d.nextBaseline m' = d.nextBaseline m := by
  rw [nextBaseline, nextBaseline, h.findings_eq _ hd]

namespace Replaces

theorem extend (hd : Replaces m m₁ d d') (h : m₁.Extends m') : Replaces m m' d d' where
  host_eq := hd.host_eq
  serial_ge := hd.serial_ge
  serial_lt := Nat.lt_of_lt_of_le hd.serial_lt h.next_le
  isRequested := by rw [h.findings_eq _ hd.serial_lt, hd.isRequested]
  output := by rw [h.findings_eq _ hd.serial_lt, hd.output]
  baseline := by rw [h.findings_eq _ hd.serial_lt, hd.baseline]

/-- The replacement may have begun earlier, if the state was there already. -/
theorem since (hd : Replaces m m' d d') (start : m₀.Extends m) (hlt : d.serial < m₀.next) :
    Replaces m₀ m' d d' :=
  { hd with
    serial_ge := Nat.le_trans start.next_le hd.serial_ge
    baseline := hd.baseline.trans (nextBaseline_extend start hlt) }

/-- Nobody has asked the state in between, so its own baseline is handed on. -/
theorem trans (hd : Replaces m m₁ d d₁) (hd' : Replaces m₁ m' d₁ d') : Replaces m m' d d' where
  host_eq := hd'.host_eq.trans hd.host_eq
  serial_ge := Nat.le_trans hd.serial_ge (Nat.le_trans (Nat.le_of_lt hd.serial_lt) hd'.serial_ge)
  serial_lt := hd'.serial_lt
  isRequested := hd'.isRequested
  output := hd'.output
  baseline := by
    rw [hd'.baseline, nextBaseline, hd.isRequested, if_neg Bool.false_ne_true, hd.baseline]

end Replaces

/-- A state that takes the place of another one, with the text where it was. -/
structure Refreshes (m m' : Memory) (d d' : DocumentState) : Prop extends Replaces m m' d d' where
  loader_eq : d'.loader = d.loader
  loaded_eq : (m'.findings d'.serial).loaded = (m.findings d.serial).loaded

namespace Refreshes

theorem extend (hd : Refreshes m m₁ d d') (h : m₁.Extends m') : Refreshes m m' d d' :=
  { hd.toReplaces.extend h, hd with
    loaded_eq := by rw [h.findings_eq _ hd.serial_lt, hd.loaded_eq] }

theorem since (hd : Refreshes m m' d d') (start : m₀.Extends m) (hlt : d.serial < m₀.next) :
    Refreshes m₀ m' d d' :=
  { hd.toReplaces.since start hlt, hd with
    loaded_eq := by rw [hd.loaded_eq, start.findings_eq _ hlt] }

end Refreshes

/-- An operation that makes a state to take the place of a given one. -/
def IsReplacement (change : DocumentState → StateM Memory DocumentState) : Prop :=
  ∀ d m, d.serial < m.next →
    ∃ d' m', (change d).run m = (d', m') ∧ m.Extends m' ∧ Replaces m m' d d'

theorem replaces_make (m : Memory) (d : DocumentState) (loader : Loader)
    (loaded : Option VersionedText) :
    Replaces m (m.add { loaded, baseline := d.nextBaseline m }) d ⟨m.next, d.host, loader⟩ where
  host_eq := rfl
  serial_ge := Nat.le_refl _
  serial_lt := Nat.lt_succ_self _
  isRequested := by rw [Memory.findings_add]
  output := by rw [Memory.findings_add]
  baseline := by rw [Memory.findings_add]

theorem renewed_refreshes (d : DocumentState) (m : Memory) :
    ∃ d' m', d.renewed.run m = (d', m') ∧ m.Extends m' ∧ Refreshes m m' d d' := by
  let known : Findings := { loaded := (m.findings d.serial).loaded, baseline := d.nextBaseline m }
  refine ⟨⟨m.next, d.host, d.loader⟩, m.add known, rfl, Memory.extends_add _ _, ?_⟩
  exact
    { replaces_make m d _ _ with
      loader_eq := rfl
      loaded_eq := by
        show ((m.add known).findings m.next).loaded = (m.findings d.serial).loaded
        rw [Memory.findings_add] }

theorem isReplacement_withText (value : VersionedText) : IsReplacement (·.withText value) := by
  intro d m _
  exact ⟨_, _, rfl, Memory.extends_add _ _, replaces_make m d _ _⟩

theorem isReplacement_withLoader (loader : Loader) : IsReplacement (·.withLoader loader) := by
  intro d m _
  exact ⟨_, _, rfl, Memory.extends_add _ _, replaces_make m d _ _⟩

theorem isReplacement_retext (text : Text) : IsReplacement (retext text) := by
  intro d m hlt
  rw [retext, Memory.run_bind, show ((get : StateM Memory Memory).run m).1 = m from rfl,
    show ((get : StateM Memory Memory).run m).2 = m from rfl]
  cases d.peek? m with
  | none => exact isReplacement_withLoader _ d m hlt
  | some older =>
      dsimp only
      by_cases heq : (older.text == text) = true
      · rw [if_pos heq]
        exact isReplacement_withText ⟨text, older.version⟩ d m hlt
      · -- A version is handed out first, before the state is made.
        rw [if_neg heq]
        obtain ⟨d', m', hrun, hext, hd⟩ :=
          isReplacement_withText ⟨text, ⟨m.next⟩⟩ d { m with next := m.next + 1 }
            (Nat.lt_succ_of_lt hlt)
        exact ⟨d', m', hrun, m.extends_next.trans hext, hd.since m.extends_next hlt⟩

end DocumentState

namespace ProjectState

open DocumentState

variable {m m' m₀ m₁ : Memory} {isTouched isTouched' : Text → Prop}
  {documents documents' : PathMap DocumentState} {path : Text} {d d' : DocumentState}

/-- What comes after an entry: the entry itself, or at a path that is touched, a state in its place. -/
inductive Revision (m m' : Memory) (isTouched : Text → Prop) :
    Text × DocumentState → Text × DocumentState → Prop where
  | kept {path : Text} {d : DocumentState} (h : ¬ isTouched path) :
      Revision m m' isTouched (path, d) (path, d)
  | replaced {path : Text} {d d' : DocumentState} (h : isTouched path) (hd : Replaces m m' d d') :
      Revision m m' isTouched (path, d) (path, d')

namespace Revision

variable {e e' f : Text × DocumentState}

theorem path_eq (h : Revision m m' isTouched e e') : e'.1 = e.1 := by
  cases h with
  | kept h => rfl
  | replaced h hd => rfl

theorem host_eq (h : Revision m m' isTouched e e') : e'.2.host = e.2.host := by
  cases h with
  | kept h => rfl
  | replaced h hd => exact hd.host_eq

theorem serial_lt (h : Revision m m' isTouched e e') (hm : m.Extends m')
    (hlt : e.2.serial < m.next) : e'.2.serial < m'.next := by
  cases h with
  | kept h => exact Nat.lt_of_lt_of_le hlt hm.next_le
  | replaced h hd => exact hd.serial_lt

theorem extend (h : Revision m m₁ isTouched e e') (hm : m₁.Extends m') :
    Revision m m' isTouched e e' := by
  cases h with
  | kept h => exact kept h
  | replaced h hd => exact replaced h (hd.extend hm)

/-- Two changes one after the other. -/
theorem trans (h : Revision m m₁ isTouched e f) (h' : Revision m₁ m' isTouched' f e')
    (hm : m.Extends m₁) (hm' : m₁.Extends m') (hlt : e.2.serial < m.next) :
    Revision m m' (fun path => isTouched path ∨ isTouched' path) e e' := by
  cases h with
  | kept h =>
      cases h' with
      | kept h' => exact kept fun hor => hor.elim h h'
      | replaced h' hd => exact replaced (Or.inr h') (hd.since hm hlt)
  | replaced h hd =>
      cases h' with
      | kept h' => exact replaced (Or.inl h) (hd.extend hm')
      | replaced h' hd' => exact replaced (Or.inl h) (hd.trans hd')

/-- A path that is touched has another state afterwards. -/
theorem replaces (h : Revision m m' isTouched e e') (htouched : isTouched e.1) :
    Replaces m m' e.2 e'.2 := by
  cases h with
  | kept h => exact absurd htouched h
  | replaced h hd => exact hd

end Revision

/-- What comes after an entry while the texts stay where they are: the entry itself, or at a path that is
    touched, the same text in other surroundings. -/
inductive Refresh (m m' : Memory) (isTouched : Text → Prop) :
    Text × DocumentState → Text × DocumentState → Prop where
  | kept {path : Text} {d : DocumentState} (h : ¬ isTouched path) :
      Refresh m m' isTouched (path, d) (path, d)
  | refreshed {path : Text} {d d' : DocumentState} (h : isTouched path) (hd : Refreshes m m' d d') :
      Refresh m m' isTouched (path, d) (path, d')

namespace Refresh

variable {e e' : Text × DocumentState}

theorem revision (h : Refresh m m' isTouched e e') : Revision m m' isTouched e e' := by
  cases h with
  | kept h => exact Revision.kept h
  | refreshed h hd => exact Revision.replaced h hd.toReplaces

theorem extend (h : Refresh m m₁ isTouched e e') (hm : m₁.Extends m') :
    Refresh m m' isTouched e e' := by
  cases h with
  | kept h => exact kept h
  | refreshed h hd => exact refreshed h (hd.extend hm)

/-- A path that is touched has the same text in other surroundings. -/
theorem refreshes (h : Refresh m m' isTouched e e') (htouched : isTouched e.1) :
    e'.1 = e.1 ∧ Refreshes m m' e.2 e'.2 := by
  cases h with
  | kept h => exact absurd htouched h
  | refreshed h hd => exact ⟨rfl, hd⟩

end Refresh

theorem revisions_of_refreshed (h : List.Forall₂ (Refresh m m' isTouched) documents documents') :
    List.Forall₂ (Revision m m' isTouched) documents documents' :=
  h.imp fun _ _ h => h.revision

/-! ## Changing entry after entry -/

/-- If what happens to each entry is a refresh, so is what happens to all of them. -/
theorem refreshed_run {f : Text × DocumentState → StateM Memory (Text × DocumentState)}
    (start : m₀.Extends m)
    (hf : ∀ e ∈ documents, ∀ m, m₀.Extends m → ∃ e' m', (f e).run m = (e', m') ∧ m.Extends m' ∧
      Refresh m₀ m' isTouched e e') :
    ∃ documents' m', (documents.mapM f).run m = (documents', m') ∧ m.Extends m' ∧
      List.Forall₂ (Refresh m₀ m' isTouched) documents documents' := by
  induction documents generalizing m with
  | nil => exact ⟨[], m, rfl, Memory.Extends.refl m, List.Forall₂.nil⟩
  | cons e documents ih =>
      obtain ⟨e', m₁, hrun, hext, hrefresh⟩ := hf e List.mem_cons_self m start
      obtain ⟨documents', m', hrun', hext', hrel⟩ :=
        ih (start.trans hext) fun e he => hf e (List.mem_cons_of_mem _ he)
      refine ⟨e' :: documents', m', ?_, hext.trans hext',
        List.Forall₂.cons (hrefresh.extend hext') hrel⟩
      rw [List.mapM_cons, Memory.run_bind, hrun, Memory.run_bind, hrun']
      rfl

/-- Renewing one document, in the course of a change that began when it was there already. -/
theorem renewed_refresh (isTouched : Text → Prop) (path : Text) (h : isTouched path)
    (start : m₀.Extends m) (hlt : d.serial < m₀.next) :
    ∃ d' m', d.renewed.run m = (d', m') ∧ m.Extends m' ∧
      Refresh m₀ m' isTouched (path, d) (path, d') := by
  obtain ⟨d', m', hrun, hext, hd⟩ := renewed_refreshes d m
  exact ⟨d', m', hrun, hext, Refresh.refreshed h (hd.since start hlt)⟩

theorem renewAt_refreshed (hlt : ∀ e ∈ documents, e.2.serial < m.next) (paths : PathSet) :
    ∃ documents' m', (renewAt documents paths).run m = (documents', m') ∧ m.Extends m' ∧
      List.Forall₂ (Refresh m m' (· ∈ paths)) documents documents' := by
  refine refreshed_run (Memory.Extends.refl m) ?_
  rintro ⟨path, d⟩ he m₁ start
  by_cases hpath : path ∈ paths
  · obtain ⟨d', m', hrun, hext, hrefresh⟩ :=
      renewed_refresh (· ∈ paths) path hpath start (hlt _ he)
    refine ⟨(path, d'), m', ?_, hext, hrefresh⟩
    dsimp only
    rw [if_pos (List.contains_iff_mem.mpr hpath), Memory.run_bind, hrun]
    rfl
  · refine ⟨(path, d), m₁, ?_, Memory.Extends.refl m₁, Refresh.kept hpath⟩
    dsimp only
    rw [if_neg fun h => hpath (List.contains_iff_mem.mp h)]
    rfl

theorem renewAll_refreshed (hlt : ∀ e ∈ documents, e.2.serial < m.next) :
    ∃ documents' m', (renewAll documents).run m = (documents', m') ∧ m.Extends m' ∧
      List.Forall₂ (Refresh m m' fun _ => True) documents documents' := by
  refine refreshed_run (Memory.Extends.refl m) ?_
  rintro ⟨path, d⟩ he m₁ start
  obtain ⟨d', m', hrun, hext, hrefresh⟩ :=
    renewed_refresh (fun _ => True) path trivial start (hlt _ he)
  refine ⟨(path, d'), m', ?_, hext, hrefresh⟩
  dsimp only
  rw [Memory.run_bind, hrun]
  rfl

/-- One value is exchanged. -/
theorem revisions_set (hsorted : documents.Sorted) (hd : (path, d) ∈ documents)
    (hreplaces : Replaces m m' d d') :
    List.Forall₂ (Revision m m' (· = path)) documents (documents.set path d') :=
  hsorted.forall₂_set hd (fun _ he => Revision.kept he) (Revision.replaced rfl hreplaces)

end ProjectState

end RazorLang
