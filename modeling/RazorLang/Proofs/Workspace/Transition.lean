import RazorLang.Proofs.Workspace.Renewal

/-!
# What a change makes of a project

`ProjectState.Follows` is all that the rest needs to know about a change of a project: a setting stays or
has a new version, the documents stay in their places or there is a new version of them, and each document
of the new state is kept with all that it is made from, succeeds one of the old state, or is the first at
its path. Here is one lemma for each kind of change that neither adds nor removes documents; that documents
which are kept have the same imports needs projects that find their imports exactly.
-/

namespace RazorLang

open DocumentState

theorem HostDocument.target_notMem_importTargets (d : HostDocument) : d.target ∉ d.importTargets := by
  rw [importTargets, List.mem_filter]
  rintro ⟨-, h⟩
  exact bne_iff_ne.mp h rfl

/-- A document is not among the importers of its own place. -/
theorem Indexed.notMem_of_target {documents : PathMap DocumentState} {importers : PathMap PathSet}
    {path : Text} {d : DocumentState} (h : Indexed documents importers) (hsorted : documents.Sorted)
    (hd : (path, d) ∈ documents) : path ∉ (importers.get? d.host.target).getD [] := by
  intro hmem
  obtain ⟨e, he, htarget⟩ := (h d.host.target path).mp hmem
  rw [hsorted.value_eq he hd] at htarget
  exact d.host.target_notMem_importTargets htarget

namespace ProjectState

variable {m m' m₀ : Memory} {p p' : ProjectState} {path : Text} {bound bound' : Nat}

/-- A project state as the changes make them, with versions below a bound. -/
structure Valid (bound : Nat) (p : ProjectState) : Prop where
  sorted : p.documents.Sorted
  path_eq : ∀ e ∈ p.documents, e.2.host.path = e.1
  distinct : Distinct p.documents
  indexed : Indexed p.documents p.importers
  configuration : p.configurationVersion.serial < bound
  discovery : p.discoveryVersion.serial < bound
  documentsVersion : p.documentsVersion.serial < bound

theorem Valid.mono (h : p.Valid bound) (hle : bound ≤ bound') : p.Valid bound' :=
  { h with
    configuration := Nat.lt_of_lt_of_le h.configuration hle
    discovery := Nat.lt_of_lt_of_le h.discovery hle
    documentsVersion := Nat.lt_of_lt_of_le h.documentsVersion hle }

theorem Valid.mem {d : DocumentState} (h : p.Valid bound) (hd : d ∈ p.documents.values) :
    (d.host.path, d) ∈ p.documents := by
  obtain ⟨e, he, rfl⟩ := List.mem_map.mp hd
  rw [h.path_eq e he]
  exact he

/-- Where a document of a project state that follows another one comes from. -/
inductive Origin (m m' : Memory) (p p' : ProjectState) : Text × DocumentState → Prop where
  | kept {path : Text} {d : DocumentState} (h : (path, d) ∈ p.documents) (host : p'.host = p.host)
      (discovery : p'.discovery = p.discovery)
      (imports : p'.importsOf d.host = p.importsOf d.host) : Origin m m' p p' (path, d)
  | successor {path : Text} {d d' : DocumentState} (h : (path, d) ∈ p.documents)
      (hd : Succeeds m m' d d') (gone : ∀ f ∈ p'.documents, f.2.serial ≠ d.serial) :
      Origin m m' p p' (path, d')
  | first {path : Text} {d : DocumentState} (hd : d.IsMade m m')
      (baseline : (m'.findings d.serial).baseline = none) (fresh : p.document? path = none) :
      Origin m m' p p' (path, d)

/-- A project state that a change has made of another one. -/
structure Follows (m m' : Memory) (p p' : ProjectState) : Prop where
  memory : m.Extends m'
  path_eq : p'.host.path = p.host.path
  configuration : (p'.host = p.host ∧ p'.configurationVersion = p.configurationVersion) ∨
    m.next ≤ p'.configurationVersion.serial
  discovery : (p'.discovery = p.discovery ∧ p'.discoveryVersion = p.discoveryVersion) ∨
    m.next ≤ p'.discoveryVersion.serial
  documents : (p'.documentsVersion = p.documentsVersion ∧
      List.Forall₂ (fun e e' => Becomes m m' e.2 e'.2) p.documents p'.documents) ∨
    m.next ≤ p'.documentsVersion.serial
  origin : ∀ e ∈ p'.documents, Origin m m' p p' e
  valid : p'.Valid m'.next

/-- What a change does to the documents of a project: it makes only those at touched paths anew, and takes
    away only those at paths that go. -/
structure Affects (p p' : ProjectState) (isTouched isGone : Text → Prop) : Prop where
  kept : ∀ e ∈ p'.documents, e ∈ p.documents ∨ isTouched e.1
  stays : ∀ e ∈ p.documents, isGone e.1 ∨ ∃ d', (e.1, d') ∈ p'.documents
  gone : ∀ e ∈ p'.documents, ¬ isGone e.1

/-- A change of all documents. -/
def AffectsAll (p p' : ProjectState) : Prop := Affects p p' (fun _ => True) fun _ => False

/-- A change of the document at a path, and of those that take imports from its place. -/
def AffectsAt (path : Text) (p p' : ProjectState) : Prop :=
  ∃ x, (path, x) ∈ p'.documents ∧
    Affects p p' (fun q => q = path ∨ q ∈ p'.importersOf x.host.target) fun _ => False

/-- A change that takes the document at a path away, and changes those that take imports from its place. -/
def AffectsGone (path : Text) (p p' : ProjectState) : Prop :=
  ∃ x, (path, x) ∈ p.documents ∧ Affects p p' (· ∈ p.importersOf x.host.target) (· = path)

/-- A change that leaves the project as it is if it is idle, or gives a state that follows it. -/
def Advances (m₀ m : Memory) (p : ProjectState) (change : StateM Memory (Option ProjectState))
    (isIdle : Prop) (affects : ProjectState → Prop) : Prop :=
  change.run m = (none, m) ∧ isIdle ∨
    ∃ p' m', change.run m = (some p', m') ∧ affects p' ∧ (p'.ImportsExactly → Follows m₀ m' p p')

/-! ## Documents that are kept or renewed -/

/-- Where documents are kept or renewed, the kept ones must have the same surroundings. -/
theorem origin_renewed {isTouched : Text → Prop} {documents documents' : PathMap DocumentState}
    (hrel : List.Forall₂ (Renewal m m' isTouched) documents documents')
    (hsubset : ∀ e ∈ documents, e ∈ p.documents) (hdistinct : Distinct p.documents)
    (hsound : ∀ e ∈ p.documents, e.2.Sound m)
    (hnew : ∀ f ∈ p'.documents, f ∈ documents' ∨ m.next ≤ f.2.serial)
    (hkept : ∀ path d, (path, d) ∈ documents → (path, d) ∈ documents' → ¬ isTouched path →
      p'.host = p.host ∧ p'.discovery = p.discovery ∧ p'.importsOf d.host = p.importsOf d.host) :
    ∀ e ∈ documents', Origin m m' p p' e := by
  intro e' he'
  obtain ⟨e, he, hrenewal⟩ := exists_of_mem_forall₂ hrel he'
  cases hrenewal with
  | kept h =>
      obtain ⟨hhost, hdiscovery, himports⟩ := hkept _ _ he he' h
      exact Origin.kept (hsubset _ he) hhost hdiscovery himports
  | renewed h hd =>
      next path d d' =>
        refine Origin.successor (hsubset _ he) hd ?_
        intro f hf heq
        have hold := (hsound _ (hsubset _ he)).serial_lt
        rcases hnew f hf with hf | hge
        · obtain ⟨g, hg, hrenewal⟩ := exists_of_mem_forall₂ hrel hf
          cases hrenewal with
          | kept hnot =>
              have hsame := hdistinct.eq (hsubset _ hg) (hsubset _ he) heq
              exact hnot ((Prod.mk.inj hsame).1 ▸ h)
          | renewed _ hd' =>
              have := hd'.serial_ge
              dsimp only at heq hold
              omega
        · dsimp only at heq hold
          omega

/-- A change of settings or of single documents: nothing is added or left out. -/
theorem follows_renewed {isTouched : Text → Prop} (hv : p.Valid m.next)
    (hsound : ∀ e ∈ p.documents, e.2.Sound m) (memory : m.Extends m')
    (hrel : List.Forall₂ (Renewal m m' isTouched) p.documents p'.documents)
    (hdistinct : Distinct p'.documents) (himporters : p'.importers = p.importers)
    (hdocuments : p'.documentsVersion = p.documentsVersion) (path_eq : p'.host.path = p.host.path)
    (configuration : (p'.host = p.host ∧ p'.configurationVersion = p.configurationVersion) ∨
      m.next ≤ p'.configurationVersion.serial)
    (discovery : (p'.discovery = p.discovery ∧ p'.discoveryVersion = p.discoveryVersion) ∨
      m.next ≤ p'.discoveryVersion.serial)
    (hconfiguration : p'.configurationVersion.serial < m'.next)
    (hdiscovery : p'.discoveryVersion.serial < m'.next)
    (hkept : ∀ path d, (path, d) ∈ p.documents → ¬ isTouched path →
      p'.host = p.host ∧ p'.discovery = p.discovery ∧
        ∀ i ∈ p.importsOf d.host, ¬ isTouched i.host.path) : Follows m m' p p' where
  memory := memory
  path_eq := path_eq
  configuration := configuration
  discovery := discovery
  documents := Or.inl ⟨hdocuments, becomes_renewed hrel (fun e he => (hsound e he).serial_lt) memory⟩
  origin := by
    refine origin_renewed hrel (fun _ he => he) hv.distinct hsound (fun f hf => Or.inl hf) ?_
    intro path d hd _ hnot
    obtain ⟨hhost, hdisc, himports⟩ := hkept path d hd hnot
    exact ⟨hhost, hdisc, importsOf_renewed hrel hv.path_eq himports⟩
  valid :=
    { sorted := sorted_renewed hrel hv.sorted
      path_eq := path_eq_renewed hrel hv.path_eq
      distinct := hdistinct
      indexed := by
        rw [himporters]
        exact hv.indexed.congr (hosts_renewed hrel)
      configuration := hconfiguration
      discovery := hdiscovery
      documentsVersion := by
        rw [hdocuments]
        exact Nat.lt_of_lt_of_le hv.documentsVersion memory.next_le }

theorem affects_renewed {isTouched : Text → Prop}
    (hrel : List.Forall₂ (Renewal m m' isTouched) p.documents p'.documents) :
    Affects p p' isTouched fun _ => False where
  kept e he := by
    obtain ⟨e₀, he₀, hrenewal⟩ := exists_of_mem_forall₂ hrel he
    cases hrenewal with
    | kept h => exact Or.inl he₀
    | renewed h hd => exact Or.inr h
  stays e he := by
    obtain ⟨e', he', hrenewal⟩ := exists_of_mem_forall₂_left hrel he
    exact Or.inr ⟨e'.2, hrenewal.path_eq ▸ he'⟩
  gone _ _ h := h

/-! ## Settings -/

theorem configure?_advances (start : m₀.Extends m) (hv : p.Valid m₀.next)
    (hsound : ∀ e ∈ p.documents, e.2.Sound m₀) {host : HostProject}
    (hpath : host.path = p.host.path) : Advances m₀ m p (p.configure? host) True p.AffectsAll := by
  by_cases hhost : p.host = host
  · refine Or.inl ⟨?_, trivial⟩
    rw [configure?, if_pos hhost]
    rfl
  · obtain ⟨documents, m', hrun, hext, hrel, -, hdistinct⟩ := renewAll_run start
      (fun e he => Nat.lt_of_lt_of_le (hsound e he).serial_lt start.next_le) hsound
    have hlast := m'.extends_next_twice
    refine Or.inr ⟨{ p with
      serial := m'.next, host, documents, version := ⟨m'.next + 1⟩
      configurationVersion := ⟨m'.next + 1⟩ }, { m' with next := m'.next + 1 + 1 }, ?_,
      affects_renewed hrel, ?_⟩
    · rw [configure?, if_neg hhost, Memory.run_bind, hrun]
      rfl
    · intro _
      have hle : m₀.next ≤ m'.next := Nat.le_trans start.next_le hext.next_le
      refine follows_renewed hv hsound ((start.trans hext).trans hlast)
        (hrel.imp fun _ _ h => h.extend hlast) (hdistinct hv.distinct) rfl rfl hpath
        (Or.inr (Nat.le_succ_of_le hle)) (Or.inl ⟨rfl, rfl⟩) (Nat.lt_succ_self _)
        (Nat.lt_of_lt_of_le hv.discovery (Nat.le_trans hle hlast.next_le)) ?_
      intro path d _ hnot
      exact absurd trivial hnot

theorem discover?_advances (start : m₀.Extends m) (hv : p.Valid m₀.next)
    (hsound : ∀ e ∈ p.documents, e.2.Sound m₀) (discovery : Discovery) :
    Advances m₀ m p (p.discover? discovery) True p.AffectsAll := by
  by_cases hdiscovery : p.discovery = discovery
  · refine Or.inl ⟨?_, trivial⟩
    rw [discover?, if_pos hdiscovery]
    rfl
  · obtain ⟨documents, m', hrun, hext, hrel, -, hdistinct⟩ := renewAll_run start
      (fun e he => Nat.lt_of_lt_of_le (hsound e he).serial_lt start.next_le) hsound
    have hlast := m'.extends_next_twice
    refine Or.inr ⟨{ p with
      serial := m'.next, discovery, documents, version := ⟨m'.next + 1⟩
      discoveryVersion := ⟨m'.next + 1⟩ }, { m' with next := m'.next + 1 + 1 }, ?_,
      affects_renewed hrel, ?_⟩
    · rw [discover?, if_neg hdiscovery, Memory.run_bind, hrun]
      rfl
    · intro _
      have hle : m₀.next ≤ m'.next := Nat.le_trans start.next_le hext.next_le
      refine follows_renewed hv hsound ((start.trans hext).trans hlast)
        (hrel.imp fun _ _ h => h.extend hlast) (hdistinct hv.distinct) rfl rfl rfl
        (Or.inl ⟨rfl, rfl⟩) (Or.inr (Nat.le_succ_of_le hle))
        (Nat.lt_of_lt_of_le hv.configuration (Nat.le_trans hle hlast.next_le)) (Nat.lt_succ_self _) ?_
      intro path d _ hnot
      exact absurd trivial hnot

/-! ## Single documents -/

/-- One value is exchanged. -/
theorem renewal_set {d d' : DocumentState} {documents : PathMap DocumentState}
    (hsorted : documents.Sorted) (hd : (path, d) ∈ documents) (hsucceeds : Succeeds m m' d d') :
    List.Forall₂ (Renewal m m' (· = path)) documents (documents.set path d') :=
  hsorted.forall₂_set hd (fun _ he => Renewal.kept he) (Renewal.renewed rfl hsucceeds)

theorem Distinct.set {d d' : DocumentState} {documents : PathMap DocumentState}
    (h : Distinct documents) (hsorted : documents.Sorted) (hd : (path, d) ∈ documents)
    (hnew : ∀ e ∈ documents, e.2.serial ≠ d'.serial) : Distinct (documents.set path d') := by
  obtain ⟨before, after, hdocuments, hset, -⟩ := hsorted.exists_set hd d'
  rw [hdocuments] at h hnew
  have hsublist : (before ++ after).Sublist (before ++ (path, d) :: after) :=
    (List.sublist_cons_self _ _).append_left before
  rw [hset]
  exact Distinct.insert (List.Pairwise.sublist hsublist h) fun f hf => hnew f (hsublist.subset hf)

/-- The imports of a document that is not touched by the change of another one are not touched either. -/
theorem Valid.imports_untouched {x d : DocumentState} {q : Text} (hv : p.Valid bound)
    (hexact : p.ImportsExactly) (hx : (path, x) ∈ p.documents) (hd : (q, d) ∈ p.documents)
    (hnot : ¬ (q = path ∨ q ∈ p.importersOf x.host.target)) :
    ∀ i ∈ p.importsOf d.host,
      ¬ (i.host.path = path ∨ i.host.path ∈ p.importersOf x.host.target) := by
  intro i hi
  obtain ⟨htarget, hsubset⟩ := hexact d (List.mem_map_of_mem hd) i hi
  have himport : (i.host.path, i) ∈ p.documents := hv.mem (mem_of_mem_importsOf hi)
  rintro (heq | hmem)
  · rw [heq] at himport
    rw [hv.sorted.value_eq himport hx] at htarget
    exact hnot (Or.inr ((hv.indexed _ _).mpr ⟨d, hd, htarget⟩))
  · exact hv.indexed.not_mem_of_subset hv.sorted hd himport hsubset (fun h => hnot (Or.inr h)) hmem

theorem changeDocument?_advances (start : m₀.Extends m) (hv : p.Valid m₀.next)
    (hsound : ∀ e ∈ p.documents, e.2.Sound m₀) (hexact : p.ImportsExactly) (path : Text)
    {change : DocumentState → StateM Memory DocumentState}
    (hchange : ∀ d, d.Sound m₀ → ∃ d' m', (change d).run m = (d', m') ∧ m.Extends m' ∧
      m.next ≤ d'.serial ∧ Succeeds m₀ m' d d') :
    Advances m₀ m p (p.changeDocument? path change) (p.document? path = none) (p.AffectsAt path) := by
  cases hget : p.document? path with
  | none =>
      refine Or.inl ⟨?_, rfl⟩
      rw [changeDocument?, hget]
      rfl
  | some x =>
      have hx : (path, x) ∈ p.documents := PathMap.mem_of_get? hget
      -- the document does not take imports from its own place, so it is not made a second time with its importers
      have hself : path ∉ p.importersOf x.host.target := hv.indexed.notMem_of_target hv.sorted hx
      obtain ⟨x', m₁, hrun₁, hext₁, hserial, hx'⟩ := hchange x (hsound _ hx)
      have hset := renewal_set hv.sorted hx hx'
      have hold (e : Text × DocumentState) (he : e ∈ p.documents) : e.2.serial < m.next :=
        Nat.lt_of_lt_of_le (hsound e he).serial_lt start.next_le
      obtain ⟨documents, m', hrun, hext, hrenewed, -, hdistinct⟩ :=
        renewAt_run (start.trans hext₁)
          (by
            intro e he
            rcases PathMap.mem_set he with rfl | he
            · exact hx'.serial_lt
            · exact Nat.lt_of_lt_of_le (hold e he) hext₁.next_le)
          (p.importersOf x.host.target)
          (by
            intro e he hmem
            rcases PathMap.mem_set he with rfl | he
            · exact absurd hmem hself
            · exact hsound e he)
      have hlast := m'.extends_next_twice
      have hrel : List.Forall₂
          (Renewal m₀ m' fun q => q = path ∨ q ∈ p.importersOf x.host.target)
          p.documents documents := by
        refine forall₂_comp hset hrenewed ?_
        intro e f g hef hfg
        refine (hef.extend hext).comp hfg ?_
        rintro q rfl
        exact hself
      refine Or.inr ⟨{ p with serial := m'.next, documents, version := ⟨m'.next + 1⟩ },
        { m' with next := m'.next + 1 + 1 }, ?_, ?_, ?_⟩
      · rw [changeDocument?, hget]
        dsimp only
        rw [Memory.run_bind, hrun₁, Memory.run_bind, hrun]
        rfl
      · obtain ⟨e', he', hrenewal⟩ := exists_of_mem_forall₂_left hrel hx
        have hpath : e'.1 = path := hrenewal.path_eq
        refine ⟨e'.2, hpath ▸ he', ?_⟩
        rw [hrenewal.host_eq]
        exact affects_renewed hrel
      · intro _
        have hle : m₀.next ≤ m'.next + 1 + 1 :=
          Nat.le_trans (Nat.le_trans (Nat.le_trans start.next_le hext₁.next_le) hext.next_le)
            hlast.next_le
        refine follows_renewed hv hsound (((start.trans hext₁).trans hext).trans hlast)
          (hrel.imp fun _ _ h => h.extend hlast) (hdistinct ?_) rfl rfl rfl
          (Or.inl ⟨rfl, rfl⟩) (Or.inl ⟨rfl, rfl⟩) (Nat.lt_of_lt_of_le hv.configuration hle)
          (Nat.lt_of_lt_of_le hv.discovery hle) ?_
        · refine hv.distinct.set hv.sorted hx ?_
          intro e he
          exact Nat.ne_of_lt (Nat.lt_of_lt_of_le (hold e he) hserial)
        · intro q d hd hnot
          exact ⟨rfl, rfl, hv.imports_untouched hexact hx hd hnot⟩

theorem changeText?_advances (start : m₀.Extends m) (hv : p.Valid m₀.next)
    (hsound : ∀ e ∈ p.documents, e.2.Sound m₀) (hexact : p.ImportsExactly) (path text : Text) :
    Advances m₀ m p (p.changeText? path text) (p.document? path = none) (p.AffectsAt path) := by
  refine changeDocument?_advances start hv hsound hexact path ?_
  intro d hd
  exact retext_run start hd text

theorem changeLoader?_advances (start : m₀.Extends m) (hv : p.Valid m₀.next)
    (hsound : ∀ e ∈ p.documents, e.2.Sound m₀) (hexact : p.ImportsExactly) (path : Text)
    {loader : Loader} {value : VersionedText} (hgives : loader.Gives value)
    (hge : m₀.next ≤ value.version.serial) (hlt : value.version.serial < m.next) :
    Advances m₀ m p (p.changeLoader? path loader) (p.document? path = none) (p.AffectsAt path) := by
  refine changeDocument?_advances start hv hsound hexact path ?_
  intro d hd
  obtain ⟨d', m', hrun, hext, hserial, hd'⟩ := withLoader_run start hd hgives hge hlt
  exact ⟨d', m', hrun, hext, Nat.le_of_eq hserial.symm, hd'⟩

end ProjectState

end RazorLang
