import RazorLang.Proofs.Workspace.History

/-!
# What a change of a project does to a history

When a project goes into another state, the snapshots of the history are those from before, those of the new
state whose document was kept, and those whose document was made (`History.Advance.arrives`). The first two
are compiled from what they were compiled from; a document that was made has no output yet, and if it has a
baseline, then that of the document in whose place it came. So the invariant of histories is kept
(`History.Advance.coherent`).
-/

namespace RazorLang

open DocumentState ProjectState

namespace DocumentSnapshot

variable {s t : DocumentSnapshot} {m m' : Memory} {p p' : ProjectState}

theorem Agrees.state_eq (h : s.Agrees t) : t.state = s.state := (List.cons.inj h.parts_eq).1

/-- The settings of a project never get older. -/
theorem notNewer_of_follows (h : Follows m m' p p') (hv : p.Valid m.next) (d d' : DocumentState) :
    NotNewer ⟨p, d⟩ ⟨p', d'⟩ := by
  refine .cons ?_ (.cons ?_ (.cons ?_ .nil))
  · rcases h.configuration with ⟨-, hsame⟩ | hge
    · exact Nat.le_of_eq (congrArg Version.serial hsame.symm)
    · exact Nat.le_of_lt (Nat.lt_of_lt_of_le hv.configuration hge)
  · rcases h.discovery with ⟨-, hsame⟩ | hge
    · exact Nat.le_of_eq (congrArg Version.serial hsame.symm)
    · exact Nat.le_of_lt (Nat.lt_of_lt_of_le hv.discovery hge)
  · rcases h.documents with ⟨hsame, -⟩ | hge
    · exact Nat.le_of_eq (congrArg Version.serial hsame.symm)
    · exact Nat.le_of_lt (Nat.lt_of_lt_of_le hv.documentsVersion hge)

theorem NotNewer.refl (s : DocumentSnapshot) : s.NotNewer s :=
  List.forall₂_same.mpr fun _ _ => Nat.le_refl _

end DocumentSnapshot

namespace History

variable {h h' : History} {s t : DocumentSnapshot} {d : DocumentState} {path : Text}
  {p p' : ProjectState}

/-- A project goes into another state. -/
structure Advance (h h' : History) (path : Text) (p p' : ProjectState) : Prop where
  before : (path, p) ∈ h.workspace.projects
  follows : Follows h.memory h'.memory p p'
  after : h'.workspace.projects = h.workspace.projects.set path p'
  states : ∀ q, q ∈ h'.states ↔ q = p' ∨ q ∈ h.states

/-- Where a snapshot of the history comes from once the project is in the other state. -/
inductive Arrives (h h' : History) (p p' : ProjectState) (s : DocumentSnapshot) : Prop where
  | kept {u : DocumentSnapshot} (hu : h.Has u) (agrees : u.Agrees s)
      (step : DocumentSnapshot.Keeps h.memory h'.memory u s ∨ s.IsNew h'.memory h.memory.next)
      (findings : h'.memory.findings s.state.serial = h.memory.findings u.state.serial)
  | made (project : s.project = p') (isMade : s.state.IsMade h.memory h'.memory)
      (baseline : (h'.memory.findings s.state.serial).baseline = none ∨
        ∃ d ∈ p.documents.values, Succeeds h.memory h'.memory d s.state ∧
          d ∉ p'.documents.values)

namespace Advance

theorem has_before (ha : Advance h h' path p p') (hc : h.Coherent) (hd : d ∈ p.documents.values) :
    h.Has ⟨p, d⟩ :=
  ⟨(hc.current _ ha.before).1, hd⟩

theorem has_of_has (ha : Advance h h' path p p') (hs : h.Has s) : h'.Has s :=
  ⟨(ha.states _).mpr (Or.inr hs.1), hs.2⟩

/-- The projects afterwards. -/
theorem projects (ha : Advance h h' path p p') (hc : h.Coherent) {e : Text × ProjectState} :
    e ∈ h'.workspace.projects ↔ e = (path, p') ∨ e ∈ h.workspace.projects ∧ e.1 ≠ path := by
  obtain ⟨before, after, hprojects, hset, hbefore, hafter⟩ := hc.sorted.exists_set ha.before p'
  rw [ha.after, hset, hprojects, List.mem_append, List.mem_append, List.mem_cons, List.mem_cons]
  constructor
  · rintro (he | rfl | he)
    · exact Or.inr ⟨Or.inl he, hbefore e he⟩
    · exact Or.inl rfl
    · exact Or.inr ⟨Or.inr (Or.inr he), hafter e he⟩
  · rintro (rfl | ⟨he | rfl | he, hne⟩)
    · exact Or.inr (Or.inl rfl)
    · exact Or.inl he
    · exact absurd rfl hne
    · exact Or.inr (Or.inr he)

/-- A document of the new state that is not new is one of the old state. -/
theorem mem_before (ha : Advance h h' path p p') (hc : h.Coherent) (hd : d ∈ p'.documents.values)
    (hold : h.Contains d) : d ∈ p.documents.values := by
  have hlt := (hc.truthful.sound d hold).serial_lt
  obtain ⟨e, he, rfl⟩ := List.mem_map.mp hd
  cases ha.follows.origin e he with
  | kept h host discovery imports => exact List.mem_map_of_mem h
  | successor h hsucceeds gone => exact absurd hlt (Nat.not_lt_of_le hsucceeds.serial_ge)
  | first hmade baseline fresh => exact absurd hlt (Nat.not_lt_of_le hmade.serial_ge)

theorem arrives (ha : Advance h h' path p p') (hc : h.Coherent) (hs : h'.Has s) :
    Arrives h h' p p' s := by
  obtain ⟨q, d⟩ := s
  have hmemory := ha.follows.memory
  have hm := hmemory.refines hc.truthful
  rcases (ha.states q).mp hs.1 with hq | hq
  · -- The snapshot is one of the new state.
    obtain rfl : q = p' := hq
    obtain ⟨e, he, rfl⟩ := List.mem_map.mp hs.2
    cases ha.follows.origin e he with
    | kept h host discovery imports =>
        have hd := List.mem_map_of_mem (f := Prod.snd) h
        have hlt := (hc.truthful.sound _ ⟨p, ha.has_before hc hd⟩).serial_lt
        refine .kept (ha.has_before hc hd) ⟨host, discovery, ?_⟩
          (ha.follows.keeps_or_isNew (Becomes.refl hlt hmemory)) (hmemory.findings_eq _ hlt)
        exact congrArg (List.cons _) imports
    | successor h hd gone =>
        refine .made rfl hd.toIsMade (Or.inr ⟨_, List.mem_map_of_mem h, hd, ?_⟩)
        intro hmem
        obtain ⟨f, hf, heq⟩ := List.mem_map.mp hmem
        exact gone f hf (congrArg DocumentState.serial heq)
    | first hd baseline fresh => exact .made rfl hd (Or.inl baseline)
  · have hlt := (hc.truthful.sound d ⟨q, hq, hs.2⟩).serial_lt
    exact .kept ⟨hq, hs.2⟩ (DocumentSnapshot.Agrees.refl _)
      (Or.inl (DocumentSnapshot.Keeps.refine (Has.contains ⟨hq, hs.2⟩) hm))
      (hmemory.findings_eq _ hlt)

/-- Documents have serials of their own, those that were made too. -/
theorem truthful (ha : Advance h h' path p p') (hc : h.Coherent) :
    h'.memory.Truthful h'.Contains := by
  have hcases (d : DocumentState) (hd : h'.Contains d) :
      h.Contains d ∨ d ∈ p'.documents.values ∧ d.IsMade h.memory h'.memory := by
    obtain ⟨q, hq⟩ := hd
    cases ha.arrives hc (s := ⟨q, d⟩) hq with
    | kept hu agrees step findings =>
        have hstate : d = _ := agrees.state_eq
        exact Or.inl (hstate ▸ ⟨_, hu⟩)
    | made project isMade baseline => exact Or.inr ⟨project ▸ hq.2, isMade⟩
  refine ⟨?_, ?_⟩
  · -- What was there before has serials below those that were handed out since.
    intro d e hd he hserial
    rcases hcases d hd with hd | ⟨hd, hmade⟩
    · have hlt := (hc.truthful.sound d hd).serial_lt
      rcases hcases e he with he | ⟨-, hmade⟩
      · exact hc.truthful.unique d e hd he hserial
      · exact absurd (hserial ▸ hlt) (Nat.not_lt_of_le hmade.serial_ge)
    · rcases hcases e he with he | ⟨he, -⟩
      · have hlt := (hc.truthful.sound e he).serial_lt
        exact absurd (hserial ▸ hlt) (Nat.not_lt_of_le hmade.serial_ge)
      · obtain ⟨f, hf, rfl⟩ := List.mem_map.mp hd
        obtain ⟨g, hg, rfl⟩ := List.mem_map.mp he
        rw [ha.follows.valid.distinct.eq hf hg hserial]
  · intro d hd
    rcases hcases d hd with hd | ⟨-, hmade⟩
    · exact (hc.truthful.sound d hd).extend ha.follows.memory
    · exact hmade.toSound

/-- What was the last snapshot of a document stays so. -/
theorem isLast (ha : Advance h h' path p p') (hc : h.Coherent) (ht : h.IsLast t) : h'.IsLast t := by
  -- A state that went away does not come back: what the new state has was there before, or is new.
  have hgone (hd : t.state ∈ p'.documents.values) : False :=
    ht.gone _ ha.before (ha.mem_before hc hd ⟨_, ht.has⟩)
  refine ⟨ha.has_of_has ht.has, ?_, ?_⟩
  · intro s hs hstate
    rcases (ha.states _).mp hs.1 with hq | hq
    · exact (hgone (hq ▸ hstate ▸ hs.2)).elim
    · exact ht.notNewer s ⟨hq, hs.2⟩ hstate
  · intro e he hd
    rcases (ha.projects hc).mp he with rfl | ⟨he, -⟩
    · exact hgone hd
    · exact ht.gone e he hd

/-- A document that the new state does not have any more has its last snapshot in the old state. -/
theorem isLast_before (ha : Advance h h' path p p') (hc : h.Coherent) (hd : d ∈ p.documents.values)
    (hgone : d ∉ p'.documents.values) : h'.IsLast ⟨p, d⟩ := by
  refine ⟨ha.has_of_has (ha.has_before hc hd), ?_, ?_⟩
  · intro s hs hstate
    obtain rfl : s.state = d := hstate
    rcases (ha.states _).mp hs.1 with hq | hq
    · exact absurd (hq ▸ hs.2) hgone
    · exact hc.latest _ ha.before s ⟨hq, hs.2⟩ hd
  · intro e he hmem
    rcases (ha.projects hc).mp he with rfl | ⟨he, hne⟩
    · exact hgone hmem
    · exact hne (congrArg Prod.fst (hc.apart e he _ ha.before d hmem hd))

/-- The new state shares no document with another project. -/
theorem notMem_values (ha : Advance h h' path p p') (hc : h.Coherent) {e : Text × ProjectState}
    (he : e ∈ h.workspace.projects) (hne : e.1 ≠ path) (hd : d ∈ e.2.documents.values) :
    d ∉ p'.documents.values := by
  intro hd'
  have hold := ha.mem_before hc hd' ⟨_, (hc.current e he).1, hd⟩
  exact hne (congrArg Prod.fst (hc.apart e he _ ha.before d hd hold))

theorem apart (ha : Advance h h' path p p') (hc : h.Coherent) :
    ∀ e ∈ h'.workspace.projects, ∀ f ∈ h'.workspace.projects, ∀ d,
      d ∈ e.2.documents.values → d ∈ f.2.documents.values → e = f := by
  intro e he f hf d hde hdf
  rcases (ha.projects hc).mp he with rfl | ⟨he, hne⟩
  · rcases (ha.projects hc).mp hf with rfl | ⟨hf, hne⟩
    · rfl
    · exact absurd hde (ha.notMem_values hc hf hne hdf)
  · rcases (ha.projects hc).mp hf with rfl | ⟨hf, -⟩
    · exact absurd hdf (ha.notMem_values hc he hne hde)
    · exact hc.apart e he f hf d hde hdf

/-- The settings of a project are the newest that its documents have had. -/
theorem latest (ha : Advance h h' path p p') (hc : h.Coherent) :
    ∀ e ∈ h'.workspace.projects, ∀ s, h'.Has s → s.state ∈ e.2.documents.values →
      s.NotNewer ⟨e.2, s.state⟩ := by
  intro e he s hs hd
  rcases (ha.projects hc).mp he with rfl | ⟨he, hne⟩
  · rcases (ha.states _).mp hs.1 with hq | hq
    · obtain ⟨q, d⟩ := s
      obtain rfl : q = p' := hq
      exact DocumentSnapshot.NotNewer.refl _
    · have hold := ha.mem_before hc hd ⟨_, hq, hs.2⟩
      exact (hc.latest _ ha.before s ⟨hq, hs.2⟩ hold).trans
        (DocumentSnapshot.notNewer_of_follows ha.follows (hc.valid _ (hc.current _ ha.before).1) _ _)
  · rcases (ha.states _).mp hs.1 with hq | hq
    · exact absurd (hq ▸ hs.2) (ha.notMem_values hc he hne hd)
    · exact hc.latest e he s ⟨hq, hs.2⟩ hd

/-- Snapshots of one state are compiled from the same. -/
theorem agree (ha : Advance h h' path p p') (hc : h.Coherent) :
    ∀ s t, h'.Has s → h'.Has t → s.state = t.state → s.Agrees t := by
  intro s t hs ht hstate
  cases ha.arrives hc hs with
  | kept hu agrees step findings =>
      have hlt := (hc.truthful.sound _ ⟨_, hu⟩).serial_lt
      cases ha.arrives hc ht with
      | kept hv agrees' step' findings' =>
          refine (agrees.symm.trans (hc.agree _ _ hu hv ?_)).trans agrees'
          rw [← agrees.state_eq, ← agrees'.state_eq, hstate]
      | made project isMade baseline =>
          rw [← agrees.state_eq, hstate] at hlt
          exact absurd hlt (Nat.not_lt_of_le isMade.serial_ge)
  | made project isMade baseline =>
      cases ha.arrives hc ht with
      | kept hv agrees' step' findings' =>
          have hlt := (hc.truthful.sound _ ⟨_, hv⟩).serial_lt
          rw [← agrees'.state_eq, ← hstate] at hlt
          exact absurd hlt (Nat.not_lt_of_le isMade.serial_ge)
      | made project' isMade' baseline' =>
          obtain ⟨q, d⟩ := s
          obtain ⟨r, e⟩ := t
          obtain rfl : q = p' := project
          obtain rfl : r = q := project'
          obtain rfl : d = e := hstate
          exact DocumentSnapshot.Agrees.refl _

/-- A baseline from before is one for what comes of its document. -/
theorem exists_baseline (ha : Advance h h' path p p') (hc : h.Coherent) {u : DocumentSnapshot} {n : Nat}
    (hu : h.Has u)
    (hstep : DocumentSnapshot.Keeps h.memory h'.memory u s ∨ s.IsNew h'.memory h.memory.next)
    (hn : (h.memory.findings u.state.serial).baseline = some n) :
    ∃ t, h'.IsLast t ∧ t.state.serial = n ∧ t.HasLoaded h'.memory ∧
      DocumentSnapshot.IsBaselineOf h'.memory t s := by
  have hm := ha.follows.memory.refines hc.truthful
  obtain ⟨t, hlast, hserial, hloaded, hbase⟩ := hc.baseline u n hu hn
  have hcontains := hlast.has.contains
  exact ⟨t, ha.isLast hc hlast, hserial, hloaded.refine hcontains hm,
    hbase.step hstep hm hcontains hloaded (hc.inputBelow_next hlast.has)⟩

/-- The baseline of a state that was made is the state before it, or the baseline of that. -/
theorem baseline (ha : Advance h h' path p p') (hc : h.Coherent) :
    ∀ s n, h'.Has s → (h'.memory.findings s.state.serial).baseline = some n →
      ∃ t, h'.IsLast t ∧ t.state.serial = n ∧ t.HasLoaded h'.memory ∧
        DocumentSnapshot.IsBaselineOf h'.memory t s := by
  intro s n hs hn
  have hm := ha.follows.memory.refines hc.truthful
  cases ha.arrives hc hs with
  | kept hu agrees step findings =>
      rw [findings] at hn
      exact ha.exists_baseline hc hu step hn
  | made project isMade baseline =>
      rcases baseline with hnone | ⟨d, hd, hsucceeds, hgone⟩
      · rw [hnone] at hn
        exact nomatch hn
      · obtain ⟨q, d'⟩ := s
        obtain rfl : q = p' := project
        have hhas := ha.has_before hc hd
        have hstep := ha.follows.keeps_or_isNew hsucceeds.toBecomes
        rw [hsucceeds.baseline, nextBaseline] at hn
        -- A document that was asked for its output is the baseline; otherwise it hands its own on.
        by_cases hrequested : (h.memory.findings d.serial).isRequested = true
        · rw [if_pos hrequested] at hn
          have hloaded := hc.requested _ hhas hrequested
          have hself : DocumentSnapshot.IsBaselineOf h.memory ⟨p, d⟩ ⟨p, d⟩ :=
            Or.inl (DocumentSnapshot.Keeps.refine hhas.contains (Memory.Extends.refines
              (Memory.Extends.refl _) hc.truthful))
          exact ⟨⟨p, d⟩, ha.isLast_before hc hd hgone, Option.some.inj hn,
            hloaded.refine hhas.contains hm,
            hself.step hstep hm hhas.contains hloaded (hc.inputBelow_next hhas)⟩
        · rw [if_neg hrequested] at hn
          exact ha.exists_baseline hc hhas hstep hn

theorem coherent (ha : Advance h h' path p p') (hc : h.Coherent) : h'.Coherent := by
  have hm := ha.follows.memory.refines hc.truthful
  refine
    { sorted := ?sorted, current := ?current, apart := ha.apart hc, latest := ha.latest hc
      valid := ?valid, truthful := ha.truthful hc, agree := ha.agree hc, asked := ?asked
      requested := ?requested, output := ?output, baseline := ha.baseline hc }
  case sorted =>
    rw [ha.after]
    exact hc.sorted.set path p'
  case current =>
    intro e he
    rcases (ha.projects hc).mp he with rfl | ⟨he, -⟩
    · exact ⟨(ha.states _).mpr (Or.inl rfl),
        ha.follows.path_eq.trans (hc.current _ ha.before).2⟩
    · exact ⟨(ha.states _).mpr (Or.inr (hc.current e he).1), (hc.current e he).2⟩
  case valid =>
    intro q hq
    rcases (ha.states q).mp hq with rfl | hq
    · exact ha.follows.valid
    · exact (hc.valid q hq).mono ha.follows.memory.next_le
  -- a snapshot of the new history agrees with one of the old, or is of a state just made, of which nothing is known
  case asked =>
    intro s hs ho
    cases ha.arrives hc hs with
    | kept hu agrees step findings =>
        rw [findings] at ho ⊢
        exact hc.asked _ hu ho
    | made project isMade baseline => exact absurd isMade.output ho
  case requested =>
    intro s hs hrequested
    cases ha.arrives hc hs with
    | kept hu agrees step findings =>
        rw [findings] at hrequested
        exact agrees.hasLoaded ((hc.requested _ hu hrequested).refine hu.contains hm)
    | made project isMade baseline =>
        rw [isMade.isRequested] at hrequested
        exact nomatch hrequested
  case output =>
    intro s o hs ho
    cases ha.arrives hc hs with
    | kept hu agrees step findings =>
        rw [findings] at ho
        obtain ⟨hcompiled, hdated, t, ht, hstate, hmade⟩ := hc.output _ o hu ho
        refine ⟨agrees.compiled_eq.trans hcompiled, hdated, t, ha.has_of_has ht,
          hstate.trans agrees.state_eq.symm, ?_⟩
        intro bound hbelow
        exact hmade bound (hbelow.before_refine ht.contains hm)
    | made project isMade baseline =>
        rw [isMade.output] at ho
        exact nomatch ho

end Advance

end History

end RazorLang
