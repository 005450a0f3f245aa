import RazorLang.Proofs.Workspace.Membership
import RazorLang.Proofs.Workspace.Replacement

/-!
# Project states that can be reached

A project state is reached from the first one by transitions, while the memory goes on in any way that only
hands out further serials (`ProjectState.Reachable`). What a transition does is said once, for all of them
and for documents with any loaders (`ProjectState.Tidy.steps`): it leaves the project as it is, or it makes a
state in which exactly the documents that it touches are replaced (`ProjectState.Turns`), some of them only
because their surroundings are others (`Transition.Renews`), and which is marked with the versions of what it
changes (`ProjectState.Marks`). The invariant of project states (`ProjectState.Tidy`) is kept by each of them,
so it holds of all states that can be reached (`ProjectState.Reachable.tidy`).
-/

namespace RazorLang

open DocumentState

namespace ProjectState

/-- A way to make another state of a project. -/
inductive Transition where
  | addDocument (d : HostDocument) (loader : Loader)
  | removeDocument (path : Text)
  | setText (path : Text) (value : VersionedText)
  | changeText (path text : Text)
  | changeLoader (path : Text) (loader : Loader)
  | configure (host : HostProject)
  | discover (discovery : Discovery)

namespace Transition

/-- The state after the transition, if there is something to change. -/
def next? (p : ProjectState) : Transition → StateM Memory (Option ProjectState)
  | addDocument d loader => p.addDocument? d loader
  | removeDocument path => p.removeDocument? path
  | setText path value => p.changeDocument? path (·.withText value)
  | changeText path text => p.changeText? path text
  | changeLoader path loader => p.changeLoader? path loader
  | configure host => p.configure? host
  | discover discovery => p.discover? discovery

/-- The document at a path takes imports from the place of the document at another path. -/
def IsRelated (p : ProjectState) (path q : Text) : Prop :=
  ∃ d, p.document? path = some d ∧ q ∈ p.importersOf d.host.target

/-- The documents that the transition makes anew, by path. -/
def Touches (p : ProjectState) : Transition → Text → Prop
  | addDocument d _, q => q ∈ p.importersOf d.target
  | removeDocument path, q => IsRelated p path q
  | setText path _, q | changeText path _, q | changeLoader path _, q => q = path ∨ IsRelated p path q
  | configure _, _ | discover _, _ => True

/-- The path of the document that the transition is about. -/
def subject? : Transition → Option Text
  | addDocument d _ => some d.path
  | removeDocument path | setText path _ | changeText path _ | changeLoader path _ => some path
  | configure _ | discover _ => none

/-- The documents of which the transition changes only the surroundings, by path. -/
def Renews (p : ProjectState) : Transition → Text → Prop
  | addDocument d _, q => q ∈ p.importersOf d.target
  | removeDocument path, q | setText path _, q | changeText path _, q | changeLoader path _, q =>
    IsRelated p path q
  | configure _, _ | discover _, _ => True

/-- The project has other documents after the transition: one more or one less. -/
def restocks : Transition → Bool
  | addDocument _ _ | removeDocument _ => true
  | _ => false

/-- The project has other settings after the transition. -/
def configures : Transition → Bool
  | configure _ => true
  | _ => false

/-- Something else has been found out about the project after the transition. -/
def discovers : Transition → Bool
  | discover _ => true
  | _ => false

/-- There is nothing to change. -/
def IsIdle (p : ProjectState) : Transition → Prop
  | addDocument d _ => p.document? d.path ≠ none
  | removeDocument path | setText path _ | changeText path _ | changeLoader path _ =>
    p.document? path = none
  | configure host => p.host = host
  | discover discovery => p.discovery = discovery

/-- What the project is for the host after the transition. -/
def hostOf (p : ProjectState) : Transition → HostProject
  | configure host => host
  | _ => p.host

/-- The transition changes the document at a path. -/
inductive Alters (path : Text) : Transition → Prop where
  | setText (value : VersionedText) : Alters path (.setText path value)
  | changeText (text : Text) : Alters path (.changeText path text)
  | changeLoader (loader : Loader) : Alters path (.changeLoader path loader)

end Transition

/-- The invariant of project states, with serials below a bound. -/
structure Tidy (bound : Nat) (p : ProjectState) : Prop where
  sorted : p.documents.Sorted
  path_eq : ∀ e ∈ p.documents, e.2.host.path = e.1
  serial_lt : ∀ e ∈ p.documents, e.2.serial < bound
  indexed : Indexed p.documents p.importers
  nonempty : ∀ e ∈ p.importers, e.2 ≠ []

/-- A document state that is the first one at its path. -/
structure IsFirst (m m' : Memory) (p : ProjectState) (t : Transition) (e : Text × DocumentState) :
    Prop where
  fresh : p.document? e.1 = none
  subject_eq : t.subject? = some e.1
  path_eq : e.2.host.path = e.1
  serial_ge : m.next ≤ e.2.serial
  serial_lt : e.2.serial < m'.next
  findings : m'.findings e.2.serial = {}

/-- How a transition marks the state that it makes: with a new serial and a new version, which is also that
    of what the transition changes. -/
structure Marks (m m' : Memory) (p p' : ProjectState) (t : Transition) : Prop where
  serial_ge : m.next ≤ p'.serial
  serial_lt : p'.serial < m'.next
  version_ge : m.next ≤ p'.version.serial
  version_lt : p'.version.serial < m'.next
  documentsVersion : p'.documentsVersion = if t.restocks then p'.version else p.documentsVersion
  configurationVersion :
    p'.configurationVersion = if t.configures then p'.version else p.configurationVersion
  discoveryVersion : p'.discoveryVersion = if t.discovers then p'.version else p.discoveryVersion

/-- What a transition makes of a project. -/
structure Turns (m m' : Memory) (p p' : ProjectState) (t : Transition) : Prop where
  memory : m.Extends m'
  host_eq : p'.host = t.hostOf p
  marks : Marks m m' p p' t
  tidy : p'.Tidy m'.next
  origin : ∀ f ∈ p'.documents,
    (∃ e ∈ p.documents, Revision m m' (t.Touches p) e f) ∨ IsFirst m m' p t f
  stays : ∀ e ∈ p.documents, t = .removeDocument e.1 ∨
    ∃ f ∈ p'.documents, Revision m m' (t.Touches p) e f
  renewed : ∀ e ∈ p.documents, t.Renews p e.1 →
    ∃ f ∈ p'.documents, f.1 = e.1 ∧ Refreshes m m' e.2 f.2

/-- The transition leaves the project as it is if it is idle, or makes another state of it. -/
def Steps (m : Memory) (p : ProjectState) (t : Transition) : Prop :=
  (t.next? p).run m = (none, m) ∧ t.IsIdle p ∨
    ∃ p' m', (t.next? p).run m = (some p', m') ∧ Turns m m' p p' t

variable {m m' : Memory} {p p' : ProjectState} {path : Text} {bound bound' : Nat}

theorem Tidy.mono (h : p.Tidy bound) (hle : bound ≤ bound') : p.Tidy bound' :=
  { h with serial_lt := fun e he => Nat.lt_of_lt_of_le (h.serial_lt e he) hle }

theorem Revision.congr {isTouched isTouched' : Text → Prop} {e f : Text × DocumentState}
    (h : Revision m m' isTouched e f) (hiff : ∀ path, isTouched path ↔ isTouched' path) :
    Revision m m' isTouched' e f := by
  cases h with
  | kept h => exact Revision.kept fun h' => h ((hiff _).mpr h')
  | replaced h hd => exact Revision.replaced ((hiff _).mp h) hd

namespace Transition.Alters

variable {t : Transition} {q : Text}

theorem touches_iff (ht : t.Alters path) : t.Touches p q ↔ q = path ∨ IsRelated p path q := by
  cases ht <;> exact Iff.rfl

theorem renews_iff (ht : t.Alters path) : t.Renews p q ↔ IsRelated p path q := by
  cases ht <;> exact Iff.rfl

theorem isIdle_iff (ht : t.Alters path) : t.IsIdle p ↔ p.document? path = none := by
  cases ht <;> exact Iff.rfl

theorem hostOf_eq (ht : t.Alters path) : t.hostOf p = p.host := by
  cases ht <;> rfl

/-- Neither the documents of the project become others nor what holds for all of them. -/
theorem changes_nothing_else (ht : t.Alters path) :
    t.restocks = false ∧ t.configures = false ∧ t.discovers = false := by
  cases ht <;> exact ⟨rfl, rfl, rfl⟩

end Transition.Alters

/-! ## Keys of the index -/

theorem nonempty_addImporters {importers : PathMap PathSet} (h : ∀ e ∈ importers, e.2 ≠ [])
    (path : Text) (targets : List Text) :
    ∀ e ∈ targets.foldl (addImporter path) importers, e.2 ≠ [] := by
  induction targets generalizing importers with
  | nil => exact h
  | cons target targets ih =>
      refine ih ?_
      intro e he
      rcases PathMap.mem_set he with rfl | he
      · exact List.ne_nil_of_mem (PathSet.mem_add.mpr (Or.inl rfl))
      · exact h e he

/-- A place from which no document takes imports any more is forgotten. -/
theorem nonempty_removeImporters {importers : PathMap PathSet} (h : ∀ e ∈ importers, e.2 ≠ [])
    (path : Text) (targets : List Text) :
    ∀ e ∈ targets.foldl (removeImporter path) importers, e.2 ≠ [] := by
  induction targets generalizing importers with
  | nil => exact h
  | cons target targets ih =>
      refine ih ?_
      intro e he
      rw [removeImporter] at he
      cases hget : importers.get? target with
      | none =>
          rw [hget] at he
          exact h e he
      | some paths =>
          rw [hget] at he
          dsimp only at he
          cases hremove : PathSet.remove paths path with
          | nil =>
              rw [hremove] at he
              exact h e (PathMap.mem_erase.mp he).1
          | cons q rest =>
              rw [hremove] at he
              rcases PathMap.mem_set he with rfl | he
              · exact List.cons_ne_nil q rest
              · exact h e he

/-! ## One transition -/

section Revised

variable {isTouched : Text → Prop} {documents documents' : PathMap DocumentState}

theorem hosts_revised (hrel : List.Forall₂ (Revision m m' isTouched) documents documents') :
    List.Forall₂ (fun e e' => e'.1 = e.1 ∧ e'.2.host = e.2.host) documents documents' :=
  hrel.imp fun _ _ h => ⟨h.path_eq, h.host_eq⟩

theorem sorted_revised (hrel : List.Forall₂ (Revision m m' isTouched) documents documents')
    (h : documents.Sorted) : documents'.Sorted :=
  h.congr (hrel.imp fun _ _ h => h.path_eq)

theorem path_eq_revised (hrel : List.Forall₂ (Revision m m' isTouched) documents documents')
    (h : ∀ e ∈ documents, e.2.host.path = e.1) : ∀ e ∈ documents', e.2.host.path = e.1 := by
  intro e' he'
  obtain ⟨e, he, hrevision⟩ := exists_of_mem_forall₂ hrel he'
  rw [hrevision.host_eq, hrevision.path_eq, h e he]

theorem serial_lt_revised (hrel : List.Forall₂ (Revision m m' isTouched) documents documents')
    (hm : m.Extends m') (h : ∀ e ∈ documents, e.2.serial < m.next) :
    ∀ e ∈ documents', e.2.serial < m'.next := by
  intro e' he'
  obtain ⟨e, he, hrevision⟩ := exists_of_mem_forall₂ hrel he'
  exact hrevision.serial_lt hm (h e he)

/-- Where there was no document, there is none afterwards. -/
theorem get?_revised (hrel : List.Forall₂ (Revision m m' isTouched) documents documents')
    (h : documents.get? path = none) : documents'.get? path = none := by
  cases hget : documents'.get? path with
  | none => rfl
  | some d =>
      obtain ⟨e, he, hrevision⟩ := exists_of_mem_forall₂ hrel (PathMap.mem_of_get? hget)
      have hpath : path = e.1 := hrevision.path_eq
      exact absurd (hpath ▸ h) (PathMap.get?_ne_none he)

/-- A transition that replaces documents, adds one or takes one away: `rest` are those that stay. -/
theorem turns_of_rest {t : Transition} {rest : PathMap DocumentState} (memory : m.Extends m')
    (host_eq : p'.host = t.hostOf p) (marks : Marks m m' p p' t) (tidy : p'.Tidy m'.next)
    (hrel : List.Forall₂ (Revision m m' (t.Touches p)) rest documents)
    (hrest : ∀ e ∈ rest, e ∈ p.documents)
    (hgone : ∀ e ∈ p.documents, t = .removeDocument e.1 ∨ e ∈ rest)
    (hnew : ∀ f ∈ p'.documents, f ∈ documents ∨ IsFirst m m' p t f)
    (hthere : ∀ f ∈ documents, f ∈ p'.documents)
    (hrenewed : ∀ e ∈ p.documents, t.Renews p e.1 →
      ∃ f ∈ documents, f.1 = e.1 ∧ Refreshes m m' e.2 f.2) : Turns m m' p p' t where
  memory := memory
  host_eq := host_eq
  marks := marks
  tidy := tidy
  origin f hf := by
    refine (hnew f hf).imp_left fun hf => ?_
    obtain ⟨e, he, hrevision⟩ := exists_of_mem_forall₂ hrel hf
    exact ⟨e, hrest e he, hrevision⟩
  stays e he := by
    refine (hgone e he).imp_right fun he => ?_
    obtain ⟨f, hf, hrevision⟩ := exists_of_mem_forall₂_left hrel he
    exact ⟨f, hthere f hf, hrevision⟩
  renewed e he hrenews := by
    obtain ⟨f, hf, hrefreshes⟩ := hrenewed e he hrenews
    exact ⟨f, hthere f hf, hrefreshes⟩

/-- What is refreshed wherever the surroundings change. -/
theorem exists_refreshes (hrel : List.Forall₂ (Refresh m m' isTouched) documents documents')
    {e : Text × DocumentState} (he : e ∈ documents) (htouched : isTouched e.1) :
    ∃ f ∈ documents', f.1 = e.1 ∧ Refreshes m m' e.2 f.2 := by
  obtain ⟨f, hf, hrefresh⟩ := exists_of_mem_forall₂_left hrel he
  exact ⟨f, hf, hrefresh.refreshes htouched⟩

/-- A transition that only replaces documents. -/
theorem turns_of_revised {t : Transition} (h : p.Tidy m.next) (memory : m.Extends m')
    (hrel : List.Forall₂ (Revision m m' (t.Touches p)) p.documents p'.documents)
    (host_eq : p'.host = t.hostOf p) (importers_eq : p'.importers = p.importers)
    (marks : Marks m m' p p' t)
    (hrenewed : ∀ e ∈ p.documents, t.Renews p e.1 →
      ∃ f ∈ p'.documents, f.1 = e.1 ∧ Refreshes m m' e.2 f.2) : Turns m m' p p' t := by
  refine turns_of_rest memory host_eq marks ?_ hrel (fun _ he => he) (fun _ he => Or.inr he)
    (fun _ hf => Or.inl hf) (fun _ hf => hf) hrenewed
  exact
    { sorted := sorted_revised hrel h.sorted
      path_eq := path_eq_revised hrel h.path_eq
      serial_lt := serial_lt_revised hrel memory h.serial_lt
      indexed := by
        rw [importers_eq]
        exact h.indexed.congr (hosts_revised hrel)
      nonempty := by
        rw [importers_eq]
        exact h.nonempty }

end Revised

/-- The serial and the version of a state are handed out at the end. -/
theorem marks_of_last {t : Transition} {m₁ : Memory} (hext : m.Extends m₁)
    (hserial : p'.serial = m₁.next) (hversion : p'.version = ⟨m₁.next + 1⟩)
    (hdocuments : p'.documentsVersion = if t.restocks then p'.version else p.documentsVersion)
    (hconfiguration :
      p'.configurationVersion = if t.configures then p'.version else p.configurationVersion)
    (hdiscovery : p'.discoveryVersion = if t.discovers then p'.version else p.discoveryVersion) :
    Marks m { m₁ with next := m₁.next + 1 + 1 } p p' t where
  serial_ge := hserial ▸ hext.next_le
  serial_lt := by
    rw [hserial]
    exact Nat.lt_succ_of_lt (Nat.lt_succ_self _)
  version_ge := by
    rw [hversion]
    exact Nat.le_succ_of_le hext.next_le
  version_lt := by
    rw [hversion]
    exact Nat.lt_succ_self _
  documentsVersion := hdocuments
  configurationVersion := hconfiguration
  discoveryVersion := hdiscovery

/-- Other documents are put into the project. -/
theorem Restocks.marks {t : Transition} (h : Restocks m m' p p') (hrestocks : t.restocks = true)
    (hconfigures : t.configures = false) (hdiscovers : t.discovers = false) : Marks m m' p p' t where
  serial_ge := h.serial_ge
  serial_lt := h.serial_lt
  version_ge := h.documentsVersion ▸ h.version_ge
  version_lt := h.documentsVersion ▸ h.version_lt
  documentsVersion := by rw [hrestocks, if_pos rfl, h.documentsVersion]
  configurationVersion := by
    rw [hconfigures, if_neg Bool.false_ne_true, h.configurationVersion]
  discoveryVersion := by
    rw [hdiscovers, if_neg Bool.false_ne_true, h.discoveryVersion]

namespace Tidy

theorem steps_configure (h : p.Tidy m.next) (host : HostProject) : Steps m p (.configure host) := by
  by_cases hhost : p.host = host
  · refine Or.inl ⟨?_, hhost⟩
    rw [Transition.next?, configure?, if_pos hhost]
    rfl
  · obtain ⟨documents, m₁, hrun, hext, hrefreshed⟩ := renewAll_refreshed h.serial_lt
    have hlast := m₁.extends_next_twice
    have hrel := hrefreshed.imp fun _ _ h => h.extend hlast
    refine Or.inr ⟨{ p with
      serial := m₁.next, host, documents, version := ⟨m₁.next + 1⟩
      configurationVersion := ⟨m₁.next + 1⟩ }, { m₁ with next := m₁.next + 1 + 1 }, ?_,
      turns_of_revised h (hext.trans hlast) (revisions_of_refreshed hrel) rfl rfl
        (marks_of_last hext rfl rfl rfl rfl rfl) fun e he htrue => exists_refreshes hrel he htrue⟩
    rw [Transition.next?, configure?, if_neg hhost, Memory.run_bind, hrun]
    rfl

theorem steps_discover (h : p.Tidy m.next) (discovery : Discovery) :
    Steps m p (.discover discovery) := by
  by_cases hdiscovery : p.discovery = discovery
  · refine Or.inl ⟨?_, hdiscovery⟩
    rw [Transition.next?, discover?, if_pos hdiscovery]
    rfl
  · obtain ⟨documents, m₁, hrun, hext, hrefreshed⟩ := renewAll_refreshed h.serial_lt
    have hlast := m₁.extends_next_twice
    have hrel := hrefreshed.imp fun _ _ h => h.extend hlast
    refine Or.inr ⟨{ p with
      serial := m₁.next, discovery, documents, version := ⟨m₁.next + 1⟩
      discoveryVersion := ⟨m₁.next + 1⟩ }, { m₁ with next := m₁.next + 1 + 1 }, ?_,
      turns_of_revised h (hext.trans hlast) (revisions_of_refreshed hrel) rfl rfl
        (marks_of_last hext rfl rfl rfl rfl rfl) fun e he htrue => exists_refreshes hrel he htrue⟩
    rw [Transition.next?, discover?, if_neg hdiscovery, Memory.run_bind, hrun]
    rfl

/-- A change of one document replaces it and those that take imports from its place. -/
theorem changeDocument?_run (h : p.Tidy m.next)
    {change : DocumentState → StateM Memory DocumentState} (hchange : IsReplacement change) {t : Transition}
    (ht : t.Alters path) (happly : t.next? p = p.changeDocument? path change) : Steps m p t := by
  rw [Steps, happly, changeDocument?]
  cases hget : p.document? path with
  | none => exact Or.inl ⟨rfl, ht.isIdle_iff.mpr hget⟩
  | some x =>
      have hx : (path, x) ∈ p.documents := PathMap.mem_of_get? hget
      obtain ⟨x', m₁, hrun₁, hext₁, hx'⟩ := hchange x m (h.serial_lt _ hx)
      have hset := revisions_set h.sorted hx hx'
      obtain ⟨documents, m₂, hrun₂, hext₂, hrefreshed⟩ :=
        renewAt_refreshed (serial_lt_revised hset hext₁ h.serial_lt) (p.importersOf x.host.target)
      have hlast := m₂.extends_next_twice
      have hrelated (q : Text) :
          Transition.IsRelated p path q ↔ q ∈ p.importersOf x.host.target := by
        rw [Transition.IsRelated, hget]
        simp
      have htouched (q : Text) :
          (q = path ∨ q ∈ p.importersOf x.host.target) ↔ t.Touches p q := by
        rw [ht.touches_iff, hrelated]
      have hrel : List.Forall₂ (Revision m m₂ (t.Touches p)) p.documents documents := by
        refine forall₂_comp ((List.forall₂_and_left _ _).mpr ⟨h.serial_lt, hset⟩)
          (revisions_of_refreshed hrefreshed) ?_
        rintro e f g ⟨hlt, hef⟩ hfg
        exact (hef.trans hfg hext₁ hext₂ hlt).congr htouched
      obtain ⟨hrestocks, hconfigures, hdiscovers⟩ := ht.changes_nothing_else
      refine Or.inr ⟨{ p with serial := m₂.next, documents, version := ⟨m₂.next + 1⟩ },
        { m₂ with next := m₂.next + 1 + 1 }, ?_,
        turns_of_revised h ((hext₁.trans hext₂).trans hlast) (hrel.imp fun _ _ h => h.extend hlast)
          ht.hostOf_eq.symm rfl ?_ ?_⟩
      · dsimp only
        rw [Memory.run_bind, hrun₁, Memory.run_bind, hrun₂]
        rfl
      · refine marks_of_last (hext₁.trans hext₂) rfl rfl ?_ ?_ ?_
        · rw [hrestocks, if_neg Bool.false_ne_true]
        · rw [hconfigures, if_neg Bool.false_ne_true]
        · rw [hdiscovers, if_neg Bool.false_ne_true]
      · intro e he hrenews
        have hrenewed : e.1 ∈ p.importersOf x.host.target := (hrelated _).mp (ht.renews_iff.mp hrenews)
        -- The document itself takes no imports from its own place, so it is among the others.
        have hother : e.1 ≠ path := by
          intro heq
          exact h.indexed.notMem_of_target h.sorted hx (heq ▸ hrenewed)
        obtain ⟨f, hf, hpath, hrefreshes⟩ :=
          exists_refreshes hrefreshed (PathMap.mem_set_of_ne he hother) hrenewed
        exact ⟨f, hf, hpath, (hrefreshes.since hext₁ (h.serial_lt e he)).extend hlast⟩

/-- A tidy project with a document more, which is in the index under its imports. -/
theorem added {isTouched : Text → Prop} {documents : PathMap DocumentState} {x : DocumentState}
    (h : p.Tidy m.next) (hm : m.Extends m')
    (hrel : List.Forall₂ (Revision m m' isTouched) p.documents documents)
    (hx : x.serial < m'.next) (hnone : documents.get? x.host.path = none)
    (hdocuments : p'.documents = documents.set x.host.path x)
    (himporters : p'.importers =
      x.host.importTargets.foldl (addImporter x.host.path) p.importers) : p'.Tidy m'.next where
  sorted := by
    rw [hdocuments]
    exact (sorted_revised hrel h.sorted).set _ _
  path_eq := by
    intro e he
    rw [hdocuments] at he
    rcases (PathMap.mem_set_of_get?_eq_none hnone).mp he with rfl | he
    · rfl
    · exact path_eq_revised hrel h.path_eq e he
  serial_lt := by
    intro e he
    rw [hdocuments] at he
    rcases (PathMap.mem_set_of_get?_eq_none hnone).mp he with rfl | he
    · exact hx
    · exact serial_lt_revised hrel hm h.serial_lt e he
  indexed := by
    rw [hdocuments, himporters]
    exact (h.indexed.congr (hosts_revised hrel)).add hnone x
  nonempty := by
    rw [himporters]
    exact nonempty_addImporters h.nonempty _ _

/-- A tidy project with a document less, which is taken out of the index. -/
theorem removed {isTouched : Text → Prop} {x : DocumentState} (h : p.Tidy m.next) (hm : m.Extends m')
    (hx : (path, x) ∈ p.documents)
    (hrel : List.Forall₂ (Revision m m' isTouched) (p.documents.erase path) p'.documents)
    (himporters : p'.importers =
      x.host.importTargets.foldl (removeImporter path) p.importers) : p'.Tidy m'.next where
  sorted := sorted_revised hrel (h.sorted.erase path)
  path_eq := path_eq_revised hrel fun e he => h.path_eq e (PathMap.mem_erase.mp he).1
  serial_lt := serial_lt_revised hrel hm fun e he => h.serial_lt e (PathMap.mem_erase.mp he).1
  indexed := by
    rw [himporters]
    exact (h.indexed.remove h.sorted hx).congr (hosts_revised hrel)
  nonempty := by
    rw [himporters]
    exact nonempty_removeImporters h.nonempty _ _

theorem steps_addDocument (h : p.Tidy m.next) (d : HostDocument) (loader : Loader) :
    Steps m p (.addDocument d loader) := by
  cases hget : p.documents.get? d.path with
  | some x =>
      refine Or.inl ⟨?_, ?_⟩
      · rw [Transition.next?, addDocument?, if_pos (by rw [PathMap.contains, hget]; rfl)]
        rfl
      · rw [Transition.IsIdle, document?, hget]
        exact Option.some_ne_none x
  | none =>
      let importers := d.importTargets.foldl (addImporter d.path) p.importers
      obtain ⟨documents, m₁, hrun, hext, hrefreshed⟩ :=
        renewAt_refreshed h.serial_lt ((importers.get? d.target).getD [])
      have hrel := revisions_of_refreshed hrefreshed
      let x : DocumentState := ⟨m₁.next, d, loader⟩
      have hadd : m₁.Extends (m₁.add {}) := Memory.extends_add _ _
      obtain ⟨p', m', hrun', hlast, hdocuments, himporters, hrestocks⟩ := withDocuments_run
        (hext.trans hadd) p (documents.set d.path x) importers
      have hnone : documents.get? d.path = none := get?_revised hrel hget
      have hmem {e : Text × DocumentState} : e ∈ p'.documents ↔ e = (d.path, x) ∨ e ∈ documents := by
        rw [hdocuments]
        exact PathMap.mem_set_of_get?_eq_none hnone
      -- The document does not take imports from its own place, so the old index knows the importers.
      have htouched (q : Text) : q ∈ (importers.get? d.target).getD [] ↔
          (Transition.addDocument d loader).Touches p q := by
        rw [Indexed.mem_foldl_addImporter]
        refine or_iff_right ?_
        rintro ⟨-, htarget⟩
        exact d.target_notMem_importTargets htarget
      have hrel' : List.Forall₂ (Revision m m' ((Transition.addDocument d loader).Touches p))
          p.documents documents :=
        hrel.imp fun _ _ h => (h.extend (hadd.trans hlast)).congr htouched
      have hfirst : IsFirst m m' p (.addDocument d loader) (d.path, x) :=
        { fresh := hget
          subject_eq := rfl
          path_eq := rfl
          serial_ge := hext.next_le
          serial_lt := Nat.lt_of_lt_of_le (Nat.lt_succ_self _) hlast.next_le
          findings := by rw [hlast.findings_eq _ (Nat.lt_succ_self _), Memory.findings_add] }
      refine Or.inr ⟨p', m', ?_, ?_⟩
      · rw [Transition.next?, addDocument?,
          if_neg (by rw [PathMap.contains, hget]; exact Bool.false_ne_true)]
        dsimp only
        rw [Memory.run_bind, hrun, Memory.run_bind, Memory.run_bind]
        exact congrArg (fun r : ProjectState × Memory => (some r.1, r.2)) hrun'
      · refine turns_of_rest hrestocks.memory hrestocks.host (hrestocks.marks rfl rfl rfl) ?_ hrel'
          (fun _ he => he) (fun _ he => Or.inr he) (fun f hf => ?_)
          (fun f hf => hmem.mpr (Or.inr hf)) fun e he hrenews => ?_
        · exact h.added hrestocks.memory hrel' hfirst.serial_lt hnone hdocuments himporters
        · rcases hmem.mp hf with rfl | hf
          · exact Or.inr hfirst
          · exact Or.inl hf
        · obtain ⟨f, hf, hpath, hrefreshes⟩ :=
            exists_refreshes hrefreshed he ((htouched e.1).mpr hrenews)
          exact ⟨f, hf, hpath, hrefreshes.extend (hadd.trans hlast)⟩

theorem steps_removeDocument (h : p.Tidy m.next) (path : Text) :
    Steps m p (.removeDocument path) := by
  rw [Steps, Transition.next?, removeDocument?]
  cases hget : p.document? path with
  | none => exact Or.inl ⟨rfl, hget⟩
  | some x =>
      have hx : (path, x) ∈ p.documents := PathMap.mem_of_get? hget
      let importers := x.host.importTargets.foldl (removeImporter path) p.importers
      have hsubset {e : Text × DocumentState} (he : e ∈ p.documents.erase path) : e ∈ p.documents :=
        (PathMap.mem_erase.mp he).1
      obtain ⟨documents, m₁, hrun, hext, hrefreshed⟩ :=
        renewAt_refreshed (fun e he => h.serial_lt e (hsubset he))
          ((importers.get? x.host.target).getD [])
      have hrel := revisions_of_refreshed hrefreshed
      obtain ⟨p', m', hrun', hlast, rfl, himporters, hrestocks⟩ :=
        withDocuments_run hext p documents importers
      -- the index without the document knows the same importers of its place, since it is none of them
      have htouched (q : Text) : q ∈ (importers.get? x.host.target).getD [] ↔
          (Transition.removeDocument path).Touches p q := by
        rw [Indexed.mem_foldl_removeImporter]
        show _ ↔ ∃ d, p.document? path = some d ∧ q ∈ p.importersOf d.host.target
        constructor
        · rintro ⟨hq, -⟩
          exact ⟨x, hget, hq⟩
        · rintro ⟨d, hd, hq⟩
          obtain rfl : x = d := Option.some.inj (hget.symm.trans hd)
          exact ⟨hq, fun heq => x.host.target_notMem_importTargets heq.2⟩
      have hrel' : List.Forall₂ (Revision m m' ((Transition.removeDocument path).Touches p))
          (p.documents.erase path) p'.documents :=
        hrel.imp fun _ _ h => (h.extend hlast).congr htouched
      refine Or.inr ⟨p', m', ?_, ?_⟩
      · dsimp only
        rw [Memory.run_bind, hrun]
        exact congrArg (fun r : ProjectState × Memory => (some r.1, r.2)) hrun'
      · refine turns_of_rest hrestocks.memory hrestocks.host (hrestocks.marks rfl rfl rfl) ?_ hrel'
          (fun _ he => hsubset he) (fun e he => ?_) (fun _ hf => Or.inl hf) (fun _ hf => hf)
          fun e he hrenews => ?_
        · exact h.removed hrestocks.memory hx hrel' himporters
        · by_cases hpath : e.1 = path
          · exact Or.inl (hpath ▸ rfl)
          · exact Or.inr (PathMap.mem_erase.mpr ⟨he, hpath⟩)
        · have hrelated : Transition.IsRelated p path e.1 := hrenews
          obtain ⟨d, hd, hq⟩ := hrelated
          obtain rfl : x = d := Option.some.inj (hget.symm.trans hd)
          have hother : e.1 ≠ path := by
            intro heq
            exact h.indexed.notMem_of_target h.sorted hx (heq ▸ hq)
          obtain ⟨f, hf, hpath, hrefreshes⟩ := exists_refreshes hrefreshed
            (PathMap.mem_erase.mpr ⟨he, hother⟩) ((htouched e.1).mpr hrenews)
          exact ⟨f, hf, hpath, hrefreshes.extend hlast⟩

/-- Every transition leaves a tidy project as it is, or makes another tidy state of it. -/
theorem steps (h : p.Tidy m.next) (t : Transition) : Steps m p t := by
  cases t with
  | addDocument d loader => exact h.steps_addDocument d loader
  | removeDocument path => exact h.steps_removeDocument path
  | setText path value =>
      exact h.changeDocument?_run (isReplacement_withText value) (Transition.Alters.setText value) rfl
  | changeText path text =>
      exact h.changeDocument?_run (isReplacement_retext text) (Transition.Alters.changeText text) rfl
  | changeLoader path loader =>
      exact h.changeDocument?_run (isReplacement_withLoader loader)
        (Transition.Alters.changeLoader loader) rfl
  | configure host => exact h.steps_configure host
  | discover discovery => exact h.steps_discover discovery

/-- A transition that is not idle makes another state. -/
theorem turns (h : p.Tidy m.next) {t : Transition} (ht : ¬ t.IsIdle p) :
    ∃ p' m', (t.next? p).run m = (some p', m') ∧ Turns m m' p p' t :=
  (h.steps t).resolve_left fun hidle => ht hidle.2

end Tidy

/-! ## Runs -/

/-- A project state that is reached from the first one, with a memory in which it is the latest state. -/
inductive Reachable : Memory → ProjectState → Prop where
  /-- The first state of a project, about which something may have been found out already. -/
  | start (m : Memory) (host : HostProject) (discovery : Discovery) :
      Reachable ((create host).run m).2 { ((create host).run m).1 with discovery }
  /-- Time goes on: anything may be loaded and generated, and serials are handed out. -/
  | later {m m' : Memory} {p : ProjectState} (h : Reachable m p) (hle : m.next ≤ m'.next) :
      Reachable m' p
  | step {m m' : Memory} {p p' : ProjectState} (h : Reachable m p) (t : Transition)
      (hrun : (t.next? p).run m = (some p', m')) : Reachable m' p'

/-- The invariant holds in all project states that can be reached. -/
theorem Reachable.tidy (h : Reachable m p) : p.Tidy m.next := by
  induction h with
  | start m host discovery =>
      exact
        { sorted := List.Pairwise.nil
          path_eq := fun e he => absurd he List.not_mem_nil
          serial_lt := fun e he => absurd he List.not_mem_nil
          indexed := .nil
          nonempty := fun e he => absurd he List.not_mem_nil }
  | later h hle ih => exact ih.mono hle
  | step h t hrun ih =>
      rcases ih.steps t with ⟨hnone, -⟩ | ⟨p', m', hsome, hturns⟩
      · rw [hnone] at hrun
        exact nomatch hrun
      · rw [hsome] at hrun
        obtain ⟨hp, rfl⟩ := Prod.mk.inj hrun
        obtain rfl := Option.some.inj hp
        exact hturns.tidy

/-- The state after several transitions. -/
def evolve (p : ProjectState) : List Transition → StateM Memory ProjectState
  | [] => return p
  | t :: ts => do evolve ((← t.next? p).getD p) ts

theorem Reachable.evolve (h : Reachable m p) (ts : List Transition) :
    Reachable ((p.evolve ts).run m).2 ((p.evolve ts).run m).1 := by
  induction ts generalizing m p with
  | nil => exact h
  | cons t ts ih =>
      rw [ProjectState.evolve, Memory.run_bind]
      rcases h.tidy.steps t with ⟨hnone, -⟩ | ⟨p', m', hsome, -⟩
      · rw [hnone]
        exact ih h
      · rw [hsome]
        exact ih (h.step t hsome)

end ProjectState

end RazorLang
