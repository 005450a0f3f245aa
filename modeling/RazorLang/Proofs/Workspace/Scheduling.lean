import RazorLang.Proofs.Workspace.Change
import RazorLang.Proofs.Workspace.Publication

/-!
# What a publisher makes of a change

When a project has advanced, the publisher schedules every open document that the change has touched, in the
state that it is in now, and forgets at most what the client has of documents that are gone or not open
(`Publisher.Notes`). This holds for every kind of change (`Publisher.notes`), with one exception: the removal
of a document touches those that take imports from its place, and schedules none of them.
-/

namespace RazorLang

open ProjectState

/-- The snapshots of a project state are those of its documents. -/
theorem ProjectState.Valid.snapshot?_eq_some {p : ProjectState} {bound : Nat} (hv : p.Valid bound)
    {path : Text} {s : DocumentSnapshot} :
    p.snapshot? path = some s ↔ s.project = p ∧ (path, s.state) ∈ p.documents := by
  rw [snapshot?, Option.map_eq_some_iff]
  constructor
  · rintro ⟨d, hd, rfl⟩
    exact ⟨rfl, PathMap.mem_of_get? hd⟩
  · rintro ⟨rfl, hd⟩
    exact ⟨s.state, hv.sorted.get?_eq_some hd, rfl⟩

/-- The importers of a snapshot are those that the project knows, in its state. -/
theorem DocumentSnapshot.mem_importers {s t : DocumentSnapshot} {bound : Nat}
    (hv : s.project.Valid bound) :
    t ∈ s.importers ↔ t.project = s.project ∧ (t.state.host.path, t.state) ∈ s.project.documents ∧
      t.state.host.path ∈ s.project.importersOf s.state.host.target := by
  have hsnapshot (path : Text) : ((s.project.document? path).map fun state => { s with state }) =
      s.project.snapshot? path := rfl
  rw [importers, List.mem_filterMap]
  constructor
  · rintro ⟨path, hpath, ht⟩
    obtain ⟨hproject, hmem⟩ := hv.snapshot?_eq_some.mp ((hsnapshot path).symm.trans ht)
    obtain rfl : t.state.host.path = path := hv.path_eq _ hmem
    exact ⟨hproject, hmem, hpath⟩
  · rintro ⟨hproject, hmem, hpath⟩
    exact ⟨_, hpath, (hsnapshot _).trans (hv.snapshot?_eq_some.mpr ⟨hproject, hmem⟩)⟩

namespace Publisher

/-- What a publisher makes of the new state of a project. -/
structure Notes (pub pub' : Publisher) (w : Workspace) (p : ProjectState)
    (isTouched isGone : Text → Prop) : Prop where
  scheduled : ∃ documents : List DocumentSnapshot, pub'.queue = (documents.foldl schedule pub).queue ∧
    (∀ s ∈ documents, s.project = p ∧ (s.state.host.path, s.state) ∈ p.documents ∧
      w.isOpen s.state.host.path = true) ∧
    ∀ e ∈ p.documents, isTouched e.1 → w.isOpen e.1 = true → ⟨p, e.2⟩ ∈ documents
  published : ∀ k, pub'.published.lookup k = pub.published.lookup k ∨
    pub'.published.lookup k = none ∧ k.1 = p.host.path ∧ (w.isOpen k.2 = false ∨ isGone k.2)
  forgotten : ∀ path, isGone path → pub'.published.lookup (p.host.path, path) = none
  sent : pub'.sent = pub.sent

variable {pub : Publisher} {w : Workspace} {p p' : ProjectState} {bound : Nat}

/-- Scheduling changes nothing but the queue. -/
theorem foldl_schedule_eq (documents : List DocumentSnapshot) (pub : Publisher) :
    documents.foldl schedule pub = { pub with queue := (documents.foldl schedule pub).queue } := by
  induction documents generalizing pub with
  | nil => rfl
  | cons s documents ih => exact ih (pub.schedule s)

/-- An event never calls the queue off. -/
theorem isCancelled_note (pub : Publisher) (w : Workspace) (e : Event) :
    (pub.note w e).queue.isCancelled = pub.queue.isCancelled := by
  have hopen (documents : List DocumentSnapshot) :
      (scheduleOpen w pub documents).queue.isCancelled = pub.queue.isCancelled := by
    rw [scheduleOpen]
    generalize documents.filter (fun s => w.isOpen s.state.host.path) = scheduled
    induction scheduled generalizing pub with
    | nil => rfl
    | cons s rest ih => exact ih (pub.schedule s)
  rw [note]
  repeat' split
  all_goals first | rfl | exact hopen _

theorem mem_filter_isOpen {documents : List DocumentSnapshot} {s : DocumentSnapshot} :
    s ∈ documents.filter (fun s => w.isOpen s.state.host.path) ↔
      s ∈ documents ∧ w.isOpen s.state.host.path = true :=
  List.mem_filter

/-- All open documents of a project are scheduled. -/
theorem notes_all (pub : Publisher) (w : Workspace) (hv : p.Valid bound) :
    Notes pub (scheduleOpen w pub (p.documents.paths.filterMap p.snapshot?)) w p (fun _ => True)
      fun _ => False where
  scheduled := by
    refine ⟨_, rfl, ?_, ?_⟩
    · intro s hs
      obtain ⟨hs, hopen⟩ := mem_filter_isOpen.mp hs
      obtain ⟨path, -, hs⟩ := List.mem_filterMap.mp hs
      obtain ⟨hproject, hmem⟩ := hv.snapshot?_eq_some.mp hs
      obtain rfl : s.state.host.path = path := hv.path_eq _ hmem
      exact ⟨hproject, hmem, hopen⟩
    · intro e he _ hopen
      refine mem_filter_isOpen.mpr ⟨List.mem_filterMap.mpr ⟨e.1, List.mem_map_of_mem he, ?_⟩, ?_⟩
      · exact hv.snapshot?_eq_some.mpr ⟨rfl, he⟩
      · rw [hv.path_eq e he]
        exact hopen
  published k := by
    rw [scheduleOpen, foldl_schedule_eq]
    exact Or.inl rfl
  forgotten _ h := h.elim
  sent := by
    rw [scheduleOpen, foldl_schedule_eq]

/-- The open importers of a document are the open documents of its project that take imports from its place. -/
theorem mem_openImporters (w : Workspace) (hv : p.Valid bound) {d : DocumentState} {s : DocumentSnapshot} :
    s ∈ (DocumentSnapshot.importers ⟨p, d⟩).filter (fun s => w.isOpen s.state.host.path) ↔
      (s.project = p ∧ (s.state.host.path, s.state) ∈ p.documents ∧
        s.state.host.path ∈ p.importersOf d.host.target) ∧ w.isOpen s.state.host.path = true := by
  rw [mem_filter_isOpen, DocumentSnapshot.mem_importers hv]

/-- An open document is scheduled with its open importers; one that is not open is forgotten. -/
theorem notes_document (pub : Publisher) (w : Workspace) (hv : p.Valid bound) {path : Text}
    {d : DocumentState} (hd : (path, d) ∈ p.documents) :
    Notes pub
      (if w.isOpen path then (scheduleOpen w pub (DocumentSnapshot.importers ⟨p, d⟩)).schedule ⟨p, d⟩
        else (scheduleOpen w pub (DocumentSnapshot.importers ⟨p, d⟩)).forget p.host.path path) w p
      (fun q => q = path ∨ q ∈ p.importersOf d.host.target) fun _ => False := by
  have hpath : d.host.path = path := hv.path_eq _ hd
  have himporters (s : DocumentSnapshot) (hs : s ∈ (DocumentSnapshot.importers ⟨p, d⟩).filter
      fun s => w.isOpen s.state.host.path) :
      s.project = p ∧ (s.state.host.path, s.state) ∈ p.documents ∧
        w.isOpen s.state.host.path = true := by
    obtain ⟨⟨hproject, hmem, -⟩, hopen⟩ := (mem_openImporters w hv).mp hs
    exact ⟨hproject, hmem, hopen⟩
  have hscheduled (e : Text × DocumentState) (he : e ∈ p.documents)
      (htouched : e.1 ∈ p.importersOf d.host.target) (hopen : w.isOpen e.1 = true) :
      (⟨p, e.2⟩ : DocumentSnapshot) ∈ (DocumentSnapshot.importers ⟨p, d⟩).filter
        fun s => w.isOpen s.state.host.path := by
    have hpath := hv.path_eq e he
    refine (mem_openImporters w hv).mpr ⟨⟨rfl, hpath.symm ▸ he, hpath.symm ▸ htouched⟩, hpath.symm ▸ hopen⟩
  by_cases hopen : w.isOpen path = true
  · -- the document comes behind its importers
    rw [if_pos hopen]
    refine ⟨⟨(DocumentSnapshot.importers ⟨p, d⟩).filter (fun s => w.isOpen s.state.host.path) ++
      [⟨p, d⟩], ?_, ?_, ?_⟩, ?_, fun _ h => h.elim, ?_⟩
    · rw [List.foldl_append]
      rfl
    · intro s hs
      rcases List.mem_append.mp hs with hs | hs
      · exact himporters s hs
      · obtain rfl := List.mem_singleton.mp hs
        refine ⟨rfl, ?_, ?_⟩
        · rw [hpath]
          exact hd
        · rw [hpath]
          exact hopen
    · rintro e he (heq | htouched) hopen'
      · obtain ⟨q, x⟩ := e
        obtain rfl : q = path := heq
        obtain rfl := hv.sorted.value_eq he hd
        exact List.mem_append_right _ (List.mem_singleton_self _)
      · exact List.mem_append_left _ (hscheduled e he htouched hopen')
    · intro k
      rw [scheduleOpen, foldl_schedule_eq]
      exact Or.inl rfl
    · rw [scheduleOpen, foldl_schedule_eq]
      rfl
  · rw [if_neg hopen]
    refine ⟨⟨_, rfl, himporters, ?_⟩, ?_, fun _ h => h.elim, ?_⟩
    · rintro e he (heq | htouched) hopen'
      · exact absurd (heq ▸ hopen') hopen
      · exact hscheduled e he htouched hopen'
    · intro k
      rw [lookup_forget, scheduleOpen, foldl_schedule_eq]
      by_cases hk : k = (p.host.path, path)
      · rw [if_pos hk, hk]
        exact Or.inr ⟨rfl, rfl, Or.inl (Bool.not_eq_true _ ▸ hopen)⟩
      · rw [if_neg hk]
        exact Or.inl rfl
    · rw [scheduleOpen, foldl_schedule_eq]
      rfl

/-- A document that is gone is forgotten, and nothing is scheduled. -/
theorem notes_removal (pub : Publisher) (w : Workspace) (path : Text) {isTouched : Text → Prop}
    (hclosed : ∀ e ∈ p.documents, isTouched e.1 → w.isOpen e.1 = false) :
    Notes pub (pub.forget p.host.path path) w p isTouched (· = path) where
  scheduled := by
    refine ⟨[], rfl, fun _ hs => absurd hs List.not_mem_nil, ?_⟩
    intro e he htouched hopen
    rw [hclosed e he htouched] at hopen
    exact absurd hopen Bool.false_ne_true
  published k := by
    rw [lookup_forget]
    by_cases hk : k = (p.host.path, path)
    · rw [if_pos hk, hk]
      exact Or.inr ⟨rfl, rfl, Or.inr rfl⟩
    · rw [if_neg hk]
      exact Or.inl rfl
  forgotten q hq := by
    rw [lookup_forget, hq, if_pos rfl]
  sent := rfl

/-- The event of a change of a project. -/
theorem notes (pub : Publisher) (w w' : Workspace) (hv : p'.Valid bound) {e : Effect}
    (hproject : e.project = p'.host.path) (hclosing : w.isClosing = false)
    (haffects : e.scope.Affects p p')
    (hclosed : ∀ path x, e.scope = .removal path → (path, x) ∈ p.documents →
      ∀ q ∈ p.importersOf x.host.target, w'.isOpen q = false) :
    ∃ isTouched isGone, Affects p p' isTouched isGone ∧
      Notes pub (pub.note w' (History.eventOf w e p p')) w' p' isTouched isGone ∧
      (∀ path isNew, e.scope = .document path isNew → isTouched path) ∧
      ∀ path, isGone path → e.scope = .removal path := by
  obtain ⟨project, scope, settling⟩ := e
  obtain rfl : project = p'.host.path := hproject
  rw [note, if_neg (by rw [History.eventOf, hclosing]; exact Bool.false_ne_true)]
  cases scope with
  | all =>
      exact ⟨_, _, haffects, notes_all pub w' hv, fun _ _ _ => trivial, fun _ h => h.elim⟩
  | document path isNew =>
      obtain ⟨x, hx, haffects⟩ := haffects
      have hsnapshot : p'.snapshot? path = some ⟨p', x⟩ := hv.snapshot?_eq_some.mpr ⟨rfl, hx⟩
      refine ⟨_, _, haffects, ?_, ?_, fun _ h => h.elim⟩
      · have hnotes := notes_document pub w' hv hx
        -- New or not, the publisher does the same.
        cases isNew <;>
          dsimp only [History.eventOf, Scope.kind, Scope.document?] <;>
          rw [hsnapshot] <;>
          exact hnotes
      · rintro _ _ ⟨⟩
        exact Or.inl rfl
  | removal path =>
      obtain ⟨x, hx, haffects⟩ := haffects
      refine ⟨_, _, haffects, ?_, ?_, ?_⟩
      · exact notes_removal pub w' path fun e _ htouched => hclosed path x rfl hx e.1 htouched
      · rintro _ _ ⟨⟩
      · rintro _ rfl
        rfl

end Publisher

end RazorLang
