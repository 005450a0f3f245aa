import RazorLang.Proofs.Workspace.Transition

/-!
# Documents that come and go

When a document is added or removed, the documents that take imports from its place are renewed. The others
are kept, and so are their imports: where projects find their imports exactly, the document is an import of
none of them (`ProjectState.Adds.importsOf_eq`, `ProjectState.Removes.importsOf_eq`). So the new state follows
the old one (`ProjectState.addDocument?_advances`, `ProjectState.removeDocument?_advances`).
-/

namespace RazorLang

open DocumentState

namespace ProjectState

variable {m m' m₀ : Memory} {p p' : ProjectState} {documents : PathMap DocumentState}
  {x d : DocumentState} {path : Text}

/-- Other documents are put into a project: the settings stay, and the documents have a new version. -/
structure Restocks (m m' : Memory) (p p' : ProjectState) : Prop where
  memory : m.Extends m'
  host : p'.host = p.host
  discovery : p'.discovery = p.discovery
  configurationVersion : p'.configurationVersion = p.configurationVersion
  discoveryVersion : p'.discoveryVersion = p.discoveryVersion
  documentsVersion : p'.documentsVersion = p'.version
  version_ge : m.next ≤ p'.documentsVersion.serial
  version_lt : p'.documentsVersion.serial < m'.next
  serial_ge : m.next ≤ p'.serial
  serial_lt : p'.serial < m'.next

theorem withDocuments_run (start : m₀.Extends m) (p : ProjectState) (documents : PathMap DocumentState)
    (importers : PathMap PathSet) : ∃ p' m', (p.withDocuments documents importers).run m = (p', m') ∧
      m.Extends m' ∧ p'.documents = documents ∧ p'.importers = importers ∧ Restocks m₀ m' p p' := by
  have hext : m.Extends { m with next := m.next + 1 + 1 } :=
    m.extends_next.trans (Memory.extends_next _)
  refine ⟨_, { m with next := m.next + 1 + 1 }, rfl, hext, rfl, rfl, ?_⟩
  exact
    { memory := start.trans hext
      host := rfl
      discovery := rfl
      configurationVersion := rfl
      discoveryVersion := rfl
      documentsVersion := rfl
      version_ge := Nat.le_succ_of_le start.next_le
      version_lt := Nat.lt_succ_self _
      serial_ge := start.next_le
      serial_lt := Nat.lt_succ_of_lt (Nat.lt_succ_self _) }

/-- The state with other documents follows the old one, whatever they are. -/
theorem Restocks.follows (h : Restocks m m' p p') (hv : p.Valid m.next)
    (sorted : p'.documents.Sorted) (path_eq : ∀ e ∈ p'.documents, e.2.host.path = e.1)
    (distinct : Distinct p'.documents) (indexed : Indexed p'.documents p'.importers)
    (origin : ∀ e ∈ p'.documents, Origin m m' p p' e) : Follows m m' p p' where
  memory := h.memory
  path_eq := congrArg HostProject.path h.host
  configuration := Or.inl ⟨h.host, h.configurationVersion⟩
  discovery := Or.inl ⟨h.discovery, h.discoveryVersion⟩
  documents := Or.inr h.version_ge
  origin := origin
  valid :=
    { sorted := sorted
      path_eq := path_eq
      distinct := distinct
      indexed := indexed
      configuration := h.configurationVersion ▸ Nat.lt_of_lt_of_le hv.configuration h.memory.next_le
      discovery := h.discoveryVersion ▸ Nat.lt_of_lt_of_le hv.discovery h.memory.next_le
      documentsVersion := h.version_lt }

/-! ## A document is added -/

/-- What becomes of a project when a document is added: those that take imports from its place are renewed,
    and it is put among them. -/
structure Adds (m m' : Memory) (p p' : ProjectState) (documents : PathMap DocumentState)
    (x : DocumentState) : Prop extends Restocks m m' p p' where
  fresh : p.document? x.host.path = none
  isMade : x.IsMade m m'
  baseline : (m'.findings x.serial).baseline = none
  renewed : List.Forall₂ (Renewal m m' (· ∈ p'.importersOf x.host.target)) p.documents documents
  distinct : Distinct documents
  apart : ∀ e ∈ documents, e.2.serial ≠ x.serial
  documents_eq : p'.documents = documents.set x.host.path x
  importers_eq : p'.importers = x.host.importTargets.foldl (addImporter x.host.path) p.importers

namespace Adds

theorem get?_documents (h : Adds m m' p p' documents x) : documents.get? x.host.path = none :=
  get?_renewed h.renewed h.fresh

theorem mem_documents (h : Adds m m' p p' documents x) {e : Text × DocumentState} :
    e ∈ p'.documents ↔ e = (x.host.path, x) ∨ e ∈ documents := by
  rw [h.documents_eq]
  exact PathMap.mem_set_of_get?_eq_none h.get?_documents

theorem mem_importersOf (h : Adds m m' p p' documents x) {target q : Text} :
    q ∈ p'.importersOf target ↔
      (q = x.host.path ∧ target ∈ x.host.importTargets) ∨ q ∈ p.importersOf target := by
  rw [importersOf, h.importers_eq]
  exact Indexed.mem_foldl_addImporter

theorem indexed (h : Adds m m' p p' documents x) (hv : p.Valid m.next) :
    Indexed p'.documents p'.importers := by
  rw [h.documents_eq, h.importers_eq]
  exact (hv.indexed.congr (hosts_renewed h.renewed)).add h.get?_documents x

/-- The new document is an import only of documents that are renewed. -/
theorem importsOf_eq (h : Adds m m' p p' documents x) (hv : p.Valid m.next)
    (hexact : p.ImportsExactly) (hexact' : p'.ImportsExactly) (hd : (path, d) ∈ p.documents)
    (hd' : (path, d) ∈ documents) (hnot : path ∉ p'.importersOf x.host.target) :
    p'.importsOf d.host = p.importsOf d.host := by
  have hindex := h.indexed hv
  have hmem : (path, d) ∈ p'.documents := h.mem_documents.mpr (Or.inr hd')
  obtain ⟨before, after, hsplit, hset⟩ := PathMap.exists_set_of_get?_eq_none h.get?_documents x
  have hvalues : ({ p with documents } : ProjectState).documents.values =
      before.map Prod.snd ++ after.map Prod.snd := by
    rw [PathMap.values, hsplit, List.map_append]
  have hvalues' : p'.documents.values = before.map Prod.snd ++ x :: after.map Prod.snd := by
    rw [PathMap.values, h.documents_eq, hset, List.map_append]
    rfl
  -- The document is put among the renewed ones, so its importers are known by the new index.
  have hothers : p'.importsOf d.host = { p with documents }.importsOf d.host := by
    refine importsOf_eq_of_insert hvalues hvalues' ?_
    intro hx
    obtain ⟨htarget, -⟩ := hexact' d (List.mem_map_of_mem hmem) x hx
    exact hnot ((hindex _ _).mpr ⟨d, hmem, htarget⟩)
  rw [hothers]
  refine importsOf_renewed (p := p) (q := { p with documents }) h.renewed hv.path_eq ?_
  intro i hi htouched
  obtain ⟨-, hsubset⟩ := hexact d (List.mem_map_of_mem hd) i hi
  have himport : (i.host.path, i) ∈ p.documents := hv.mem (mem_of_mem_importsOf hi)
  rcases h.mem_importersOf.mp htouched with ⟨hpath, -⟩ | htouched
  · rw [hpath] at himport
    exact absurd h.fresh (PathMap.get?_ne_none himport)
  · refine hv.indexed.not_mem_of_subset hv.sorted hd himport hsubset ?_ htouched
    intro htouched
    exact hnot (h.mem_importersOf.mpr (Or.inr htouched))

theorem origin (h : Adds m m' p p' documents x) (hv : p.Valid m.next)
    (hsound : ∀ e ∈ p.documents, e.2.Sound m) (hexact : p.ImportsExactly)
    (hexact' : p'.ImportsExactly) : ∀ e ∈ p'.documents, Origin m m' p p' e := by
  intro e he
  rcases h.mem_documents.mp he with rfl | he
  · exact Origin.first h.isMade h.baseline h.fresh
  · refine origin_renewed h.renewed (fun _ he => he) hv.distinct hsound ?_ ?_ e he
    · intro f hf
      rcases h.mem_documents.mp hf with rfl | hf
      · exact Or.inr h.isMade.serial_ge
      · exact Or.inl hf
    · intro path d hd hd' hnot
      exact ⟨h.host, h.discovery, h.importsOf_eq hv hexact hexact' hd hd' hnot⟩

theorem follows (h : Adds m m' p p' documents x) (hv : p.Valid m.next)
    (hsound : ∀ e ∈ p.documents, e.2.Sound m) (hexact : p.ImportsExactly)
    (hexact' : p'.ImportsExactly) : Follows m m' p p' := by
  refine h.toRestocks.follows hv ?_ ?_ ?_ (h.indexed hv) (h.origin hv hsound hexact hexact')
  · rw [h.documents_eq]
    exact (sorted_renewed h.renewed hv.sorted).set x.host.path x
  · intro e he
    rcases h.mem_documents.mp he with rfl | he
    · rfl
    · exact path_eq_renewed h.renewed hv.path_eq e he
  · obtain ⟨before, after, hsplit, hset⟩ := PathMap.exists_set_of_get?_eq_none h.get?_documents x
    rw [h.documents_eq, hset]
    exact Distinct.insert (hsplit ▸ h.distinct) (hsplit ▸ h.apart)

theorem affects (h : Adds m m' p p' documents x) : p.AffectsAt x.host.path p' := by
  have haffects : Affects p { p with documents } (· ∈ p'.importersOf x.host.target) fun _ => False :=
    affects_renewed h.renewed
  refine ⟨x, h.mem_documents.mpr (Or.inl rfl), ?_, ?_, fun _ _ h => h⟩
  · intro e he
    rcases h.mem_documents.mp he with rfl | he
    · exact Or.inr (Or.inl rfl)
    · exact (haffects.kept e he).imp_right Or.inr
  · intro e he
    rcases haffects.stays e he with hfalse | ⟨d', hd'⟩
    · exact hfalse.elim
    · exact Or.inr ⟨d', h.mem_documents.mpr (Or.inr hd')⟩

end Adds

theorem addDocument?_advances (start : m₀.Extends m) (hv : p.Valid m₀.next)
    (hsound : ∀ e ∈ p.documents, e.2.Sound m₀) (hexact : p.ImportsExactly) (d : HostDocument)
    {loader : Loader} (hconstant : loader.Constant m.next) :
    Advances m₀ m p (p.addDocument? d loader) True (p.AffectsAt d.path) := by
  cases hget : p.documents.get? d.path with
  | some x =>
      refine Or.inl ⟨?_, trivial⟩
      rw [addDocument?, if_pos (by rw [PathMap.contains, hget]; rfl)]
      rfl
  | none =>
      let importers := d.importTargets.foldl (addImporter d.path) p.importers
      have hold (e : Text × DocumentState) (he : e ∈ p.documents) : e.2.serial < m.next :=
        Nat.lt_of_lt_of_le (hsound e he).serial_lt start.next_le
      -- the importers are renewed first, and then the new document is put among them
      obtain ⟨documents, m₁, hrun, hext, hrel, -, hdistinct⟩ :=
        renewAt_run start hold ((importers.get? d.target).getD []) fun e he _ => hsound e he
      let x : DocumentState := ⟨m₁.next, d, loader⟩
      have hadd : m₁.Extends (m₁.add {}) := Memory.extends_add _ _
      have hmade : IsMade m₀ (m₁.add {}) x :=
        isMade_make (Nat.le_trans start.next_le hext.next_le)
          (hconstant.mono (Nat.le_succ_of_le hext.next_le)) fun _ h => nomatch h
      obtain ⟨p', m', hrun', hlast, hdocuments, himporters, hrestocks⟩ := withDocuments_run
        (start.trans (hext.trans hadd)) p (documents.set d.path x) importers
      have hadds : Adds m₀ m' p p' documents x :=
        { toRestocks := hrestocks
          fresh := hget
          isMade := hmade.extend hlast
          baseline := by rw [hlast.findings_eq _ (Nat.lt_succ_self _), Memory.findings_add]
          renewed := by
            rw [importersOf, himporters]
            exact hrel.imp fun _ _ h => h.extend (hadd.trans hlast)
          distinct := hdistinct hv.distinct
          apart := by
            intro e he
            obtain ⟨e₀, he₀, hrenewal⟩ := exists_of_mem_forall₂ hrel he
            cases hrenewal with
            | kept h => exact Nat.ne_of_lt (Nat.lt_of_lt_of_le (hold _ he₀) hext.next_le)
            | renewed h hd => exact Nat.ne_of_lt hd.serial_lt
          documents_eq := hdocuments
          importers_eq := himporters }
      refine Or.inr ⟨p', m', ?_, hadds.affects, hadds.follows hv hsound hexact⟩
      rw [addDocument?, if_neg (by rw [PathMap.contains, hget]; exact Bool.false_ne_true)]
      dsimp only
      rw [Memory.run_bind, hrun, Memory.run_bind, Memory.run_bind]
      exact congrArg (fun r : ProjectState × Memory => (some r.1, r.2)) hrun'

/-! ## A document is removed -/

/-- What becomes of a project when a document is removed: those that take imports from its place are renewed. -/
structure Removes (m m' : Memory) (p p' : ProjectState) (path : Text) (x : DocumentState) : Prop
    extends Restocks m m' p p' where
  there : (path, x) ∈ p.documents
  renewed : List.Forall₂ (Renewal m m' (· ∈ p'.importersOf x.host.target)) (p.documents.erase path)
    p'.documents
  distinct : Distinct p'.documents
  importers_eq : p'.importers = x.host.importTargets.foldl (removeImporter path) p.importers

namespace Removes

variable {q : Text}

theorem mem_importersOf (h : Removes m m' p p' path x) {target : Text} :
    q ∈ p'.importersOf target ↔
      q ∈ p.importersOf target ∧ ¬ (q = path ∧ target ∈ x.host.importTargets) := by
  rw [importersOf, h.importers_eq]
  exact Indexed.mem_foldl_removeImporter

theorem indexed (h : Removes m m' p p' path x) (hv : p.Valid m.next) :
    Indexed p'.documents p'.importers := by
  rw [h.importers_eq]
  exact (hv.indexed.remove hv.sorted h.there).congr (hosts_renewed h.renewed)

/-- The document that goes was an import only of documents that are renewed. -/
theorem importsOf_eq (h : Removes m m' p p' path x) (hv : p.Valid m.next) (hexact : p.ImportsExactly)
    (hd : (q, d) ∈ p.documents) (hne : q ≠ path) (hnot : q ∉ p'.importersOf x.host.target) :
    p'.importsOf d.host = p.importsOf d.host := by
  have hnot' : q ∉ p.importersOf x.host.target := fun hmem =>
    hnot (h.mem_importersOf.mpr ⟨hmem, fun heq => hne heq.1⟩)
  obtain ⟨before, after, hsplit, herase⟩ := hv.sorted.exists_erase h.there
  have hvalues : ({ p with documents := p.documents.erase path } : ProjectState).documents.values =
      before.map Prod.snd ++ after.map Prod.snd := by
    rw [PathMap.values, herase, List.map_append]
  have hvalues' : p.documents.values = before.map Prod.snd ++ x :: after.map Prod.snd := by
    rw [PathMap.values, hsplit, List.map_append]
    rfl
  -- Here the old index knows the importers: the document is taken away before the others are renewed.
  have hothers : p.importsOf d.host =
      { p with documents := p.documents.erase path }.importsOf d.host := by
    refine importsOf_eq_of_insert hvalues hvalues' ?_
    intro hmem
    obtain ⟨htarget, -⟩ := hexact d (List.mem_map_of_mem hd) x hmem
    exact hnot' ((hv.indexed _ _).mpr ⟨d, hd, htarget⟩)
  rw [hothers]
  refine importsOf_renewed (p := { p with documents := p.documents.erase path }) h.renewed
    (fun e he => hv.path_eq e (PathMap.mem_erase.mp he).1) ?_
  intro i hi htouched
  rw [← hothers] at hi
  obtain ⟨-, hsubset⟩ := hexact d (List.mem_map_of_mem hd) i hi
  exact hv.indexed.not_mem_of_subset hv.sorted hd (hv.mem (mem_of_mem_importsOf hi)) hsubset hnot'
    (h.mem_importersOf.mp htouched).1

theorem origin (h : Removes m m' p p' path x) (hv : p.Valid m.next)
    (hsound : ∀ e ∈ p.documents, e.2.Sound m) (hexact : p.ImportsExactly) :
    ∀ e ∈ p'.documents, Origin m m' p p' e := by
  refine origin_renewed h.renewed (fun _ he => (PathMap.mem_erase.mp he).1) hv.distinct hsound
    (fun f hf => Or.inl hf) ?_
  intro q d hd _ hnot
  obtain ⟨hd, hne⟩ := PathMap.mem_erase.mp hd
  exact ⟨h.host, h.discovery, h.importsOf_eq hv hexact hd hne hnot⟩

theorem follows (h : Removes m m' p p' path x) (hv : p.Valid m.next)
    (hsound : ∀ e ∈ p.documents, e.2.Sound m) (hexact : p.ImportsExactly) : Follows m m' p p' :=
  h.toRestocks.follows hv (sorted_renewed h.renewed (hv.sorted.erase path))
    (path_eq_renewed h.renewed fun e he => hv.path_eq e (PathMap.mem_erase.mp he).1) h.distinct
    (h.indexed hv) (h.origin hv hsound hexact)

theorem affects (h : Removes m m' p p' path x) : p.AffectsGone path p' := by
  have haffects : Affects { p with documents := p.documents.erase path } p'
      (· ∈ p'.importersOf x.host.target) fun _ => False :=
    affects_renewed h.renewed
  refine ⟨x, h.there, ?_, ?_, ?_⟩
  · intro e he
    exact (haffects.kept e he).imp (fun he => (PathMap.mem_erase.mp he).1) fun htouched =>
      (h.mem_importersOf.mp htouched).1
  · intro e he
    by_cases hpath : e.1 = path
    · exact Or.inl hpath
    · exact (haffects.stays e (PathMap.mem_erase.mpr ⟨he, hpath⟩)).imp_left False.elim
  · intro e he
    obtain ⟨e₀, he₀, hrenewal⟩ := exists_of_mem_forall₂ h.renewed he
    rw [hrenewal.path_eq]
    exact (PathMap.mem_erase.mp he₀).2

end Removes

theorem removeDocument?_advances (start : m₀.Extends m) (hv : p.Valid m₀.next)
    (hsound : ∀ e ∈ p.documents, e.2.Sound m₀) (hexact : p.ImportsExactly) (path : Text) :
    Advances m₀ m p (p.removeDocument? path) (p.document? path = none) (p.AffectsGone path) := by
  cases hget : p.document? path with
  | none =>
      refine Or.inl ⟨?_, rfl⟩
      rw [removeDocument?, hget]
      rfl
  | some x =>
      let importers := x.host.importTargets.foldl (removeImporter path) p.importers
      have hsubset (e : Text × DocumentState) (he : e ∈ p.documents.erase path) : e.2.Sound m₀ :=
        hsound e (PathMap.mem_erase.mp he).1
      obtain ⟨documents, m₁, hrun, hext, hrel, -, hdistinct⟩ := renewAt_run start
        (fun e he => Nat.lt_of_lt_of_le (hsubset e he).serial_lt start.next_le)
        ((importers.get? x.host.target).getD []) fun e he _ => hsubset e he
      obtain ⟨p', m', hrun', hlast, rfl, himporters, hrestocks⟩ :=
        withDocuments_run (start.trans hext) p documents importers
      have hremoves : Removes m₀ m' p p' path x :=
        { toRestocks := hrestocks
          there := PathMap.mem_of_get? hget
          renewed := by
            rw [importersOf, himporters]
            exact hrel.imp fun _ _ h => h.extend hlast
          distinct := hdistinct (List.Pairwise.filter _ hv.distinct)
          importers_eq := himporters }
      refine Or.inr ⟨p', m', ?_, hremoves.affects, fun _ => hremoves.follows hv hsound hexact⟩
      rw [removeDocument?, hget]
      dsimp only
      rw [Memory.run_bind, hrun]
      exact congrArg (fun r : ProjectState × Memory => (some r.1, r.2)) hrun'

end ProjectState

end RazorLang
