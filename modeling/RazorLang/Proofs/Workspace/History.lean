import RazorLang.Proofs.Workspace.Baseline
import RazorLang.Workspace.Basic

/-!
# What is known in the course of a history

A `History` is a workspace with all states that its projects have been in, because somebody may still ask a
snapshot of an earlier state for its output. `History.Coherent` is the invariant of histories: outputs that
are kept are the ones that compiling gives, and the state that a snapshot has as its baseline is that of a
snapshot whose output its versions tell to be good or not (`DocumentSnapshot.IsBaselineOf`).

This file says what a request for output does to a history (`History.Coherent.output`): if there is an output
then it is right, and the invariant is kept.
-/

namespace RazorLang

open DocumentState

/-- A workspace with all states that its projects have been in. -/
structure History where
  workspace : Workspace := {}
  states : List ProjectState := []

namespace DocumentSnapshot

variable {s t u : DocumentSnapshot} {m : Memory} {bound : Nat}

/-- Two snapshots that are compiled from the same. -/
structure Agrees (s t : DocumentSnapshot) : Prop where
  host_eq : t.project.host = s.project.host
  discovery_eq : t.project.discovery = s.project.discovery
  parts_eq : t.parts = s.parts

theorem Agrees.refl (s : DocumentSnapshot) : s.Agrees s := ⟨rfl, rfl, rfl⟩

theorem Agrees.symm (h : s.Agrees t) : t.Agrees s :=
  ⟨h.host_eq.symm, h.discovery_eq.symm, h.parts_eq.symm⟩

theorem Agrees.trans (h : s.Agrees t) (h' : t.Agrees u) : s.Agrees u :=
  ⟨h'.host_eq.trans h.host_eq, h'.discovery_eq.trans h.discovery_eq, h'.parts_eq.trans h.parts_eq⟩

theorem Agrees.compiled_eq (h : s.Agrees t) : t.compiled = s.compiled :=
  compiled_congr h.host_eq h.discovery_eq (h.parts_eq ▸ List.forall₂_same.mpr fun _ _ => ⟨rfl, rfl⟩)

theorem Agrees.hasLoaded (h : s.Agrees t) (hs : s.HasLoaded m) : t.HasLoaded m := by
  rw [HasLoaded, h.parts_eq]
  exact hs

/-- A snapshot whose settings are not newer than those of another one. -/
def NotNewer (s t : DocumentSnapshot) : Prop :=
  List.Forall₂ (fun v w : Version => v.serial ≤ w.serial) s.settings t.settings

theorem NotNewer.trans (h : s.NotNewer t) (h' : t.NotNewer u) : s.NotNewer u :=
  forall₂_comp h h' fun _ _ _ => Nat.le_trans

theorem Agrees.inputBelow (h : s.Agrees t) (hst : s.NotNewer t) (ht : t.InputBelow m bound) :
    s.InputBelow m bound where
  settings v hv := by
    obtain ⟨w, hw, hle⟩ := exists_of_mem_forall₂_left hst hv
    exact Nat.lt_of_le_of_lt hle (ht.settings w hw)
  texts d hd := ht.texts d (h.parts_eq ▸ hd)

end DocumentSnapshot

namespace History

variable {h h' : History} {s t : DocumentSnapshot} {d : DocumentState} {m' : Memory}

/-- What the workspace of a history remembers. -/
abbrev memory (h : History) : Memory := h.workspace.memory

/-- The history in which something else is remembered. -/
abbrev withMemory (h : History) (m : Memory) : History :=
  { h with workspace := { h.workspace with memory := m } }

/-- A snapshot that somebody may have taken. -/
def Has (h : History) (s : DocumentSnapshot) : Prop :=
  s.project ∈ h.states ∧ s.state ∈ s.project.documents.values

/-- A document of some project at some time. -/
def Contains (h : History) (d : DocumentState) : Prop :=
  ∃ p ∈ h.states, d ∈ p.documents.values

theorem Has.contains (hs : h.Has s) : ∀ d ∈ s.parts, h.Contains d := by
  refine List.forall_mem_cons.mpr ⟨⟨s.project, hs⟩, ?_⟩
  intro i hi
  exact ⟨s.project, hs.1, ProjectState.mem_of_mem_importsOf hi⟩

/-- The latest snapshot of a document state that no project has any more. -/
structure IsLast (h : History) (t : DocumentSnapshot) : Prop where
  has : h.Has t
  notNewer : ∀ s, h.Has s → s.state = t.state → s.NotNewer t
  gone : ∀ e ∈ h.workspace.projects, t.state ∉ e.2.documents.values

/-- What was the last snapshot of a document stays so where no documents are added. -/
theorem IsLast.carry (hlast : h.IsLast t) (hhas : ∀ s, h'.Has s ↔ h.Has s)
    (hprojects : ∀ e ∈ h'.workspace.projects, e ∈ h.workspace.projects ∨ e.2.documents = []) :
    h'.IsLast t := by
  refine ⟨(hhas t).mpr hlast.has, fun s hs => hlast.notNewer s ((hhas s).mp hs), ?_⟩
  intro e he hd
  rcases hprojects e he with he | hnone
  · exact hlast.gone e he hd
  · rw [hnone] at hd
    exact absurd hd List.not_mem_nil

/-- The invariant of histories. -/
structure Coherent (h : History) : Prop where
  sorted : h.workspace.projects.Sorted
  current : ∀ e ∈ h.workspace.projects, e.2 ∈ h.states ∧ e.2.host.path = e.1
  apart : ∀ e ∈ h.workspace.projects, ∀ f ∈ h.workspace.projects, ∀ d,
    d ∈ e.2.documents.values → d ∈ f.2.documents.values → e = f
  latest : ∀ e ∈ h.workspace.projects, ∀ s, h.Has s → s.state ∈ e.2.documents.values →
    s.NotNewer ⟨e.2, s.state⟩
  valid : ∀ p ∈ h.states, p.Valid h.memory.next
  truthful : h.memory.Truthful h.Contains
  agree : ∀ s t, h.Has s → h.Has t → s.state = t.state → s.Agrees t
  asked : ∀ s, h.Has s → (h.memory.findings s.state.serial).output ≠ none →
    (h.memory.findings s.state.serial).isRequested = true
  requested : ∀ s, h.Has s → (h.memory.findings s.state.serial).isRequested = true →
    s.HasLoaded h.memory
  output : ∀ s o, h.Has s → (h.memory.findings s.state.serial).output = some o →
    s.compiled = .ok o.compilation ∧ o.IsDated ∧ ∃ t, h.Has t ∧ t.state = s.state ∧
      ∀ bound, t.InputBelow h.memory bound → o.input.serial < bound
  baseline : ∀ s n, h.Has s → (h.memory.findings s.state.serial).baseline = some n →
    ∃ t, h.IsLast t ∧ t.state.serial = n ∧ t.HasLoaded h.memory ∧
      DocumentSnapshot.IsBaselineOf h.memory t s

theorem coherent_start : Coherent {} where
  sorted := List.Pairwise.nil
  current _ he := absurd he List.not_mem_nil
  apart _ he := absurd he List.not_mem_nil
  latest _ he := absurd he List.not_mem_nil
  valid _ hp := absurd hp List.not_mem_nil
  truthful :=
    { unique := fun _ _ hd => by
        obtain ⟨p, hp, -⟩ := hd
        exact absurd hp List.not_mem_nil
      sound := fun _ hd => by
        obtain ⟨p, hp, -⟩ := hd
        exact absurd hp List.not_mem_nil }
  agree _ _ hs := absurd hs.1 List.not_mem_nil
  asked _ hs := absurd hs.1 List.not_mem_nil
  requested _ hs := absurd hs.1 List.not_mem_nil
  output _ _ hs := absurd hs.1 List.not_mem_nil
  baseline _ _ hs := absurd hs.1 List.not_mem_nil

namespace Coherent

/-- All versions that are known were handed out. -/
theorem inputBelow_next (hc : h.Coherent) (hs : h.Has s) : s.InputBelow h.memory h.memory.next where
  settings v hv := by
    have hvalid := hc.valid _ hs.1
    simp only [DocumentSnapshot.settings, List.mem_cons, List.not_mem_nil, or_false] at hv
    rcases hv with rfl | rfl | rfl
    · exact hvalid.configuration
    · exact hvalid.discovery
    · exact hvalid.documentsVersion
  texts d hd value hvalue := ((hc.truthful.sound d (hs.contains d hd)).loaded value hvalue).2

/-- The same state, the same document. -/
theorem agrees (hc : h.Coherent) (hs : h.Has s) (ht : h.Has t)
    (hserial : s.state.serial = t.state.serial) : s.Agrees t :=
  hc.agree s t hs ht (hc.truthful.unique _ _ ⟨_, hs⟩ ⟨_, ht⟩ hserial)

/-- The invariant is kept where no documents are added: projects may go, and more may be found out. -/
theorem carry (hc : h.Coherent) (hstates : ∀ p ∈ h.states, p ∈ h'.states)
    (hstates' : ∀ p ∈ h'.states, (p ∈ h.states ∨ p.documents = []) ∧ p.Valid h'.memory.next)
    (hsorted : h'.workspace.projects.Sorted)
    (hprojects : ∀ e ∈ h'.workspace.projects, e ∈ h.workspace.projects ∨ e.2.documents = [])
    (hcurrent : ∀ e ∈ h'.workspace.projects, e.2 ∈ h'.states ∧ e.2.host.path = e.1)
    (hm : Memory.Refines h.Contains h.memory h'.memory) (ht : h'.memory.Truthful h.Contains)
    (hasked : ∀ s, h.Has s → (h'.memory.findings s.state.serial).output ≠ none →
      (h'.memory.findings s.state.serial).isRequested = true)
    (hrequested : ∀ s, h.Has s → (h'.memory.findings s.state.serial).isRequested = true →
      s.HasLoaded h'.memory)
    (houtput : ∀ s o, h.Has s → (h'.memory.findings s.state.serial).output = some o →
      s.compiled = .ok o.compilation ∧ o.IsDated ∧ ∃ t, h.Has t ∧ t.state = s.state ∧
        ∀ bound, t.InputBelow h'.memory bound → o.input.serial < bound)
    (hbaseline : ∀ s n, h.Has s → (h'.memory.findings s.state.serial).baseline = some n →
      (h.memory.findings s.state.serial).baseline = some n) : h'.Coherent := by
  -- states without documents have no snapshots, so both histories have the same ones
  have hhas (s : DocumentSnapshot) (hs : h'.Has s) : h.Has s := by
    rcases (hstates' _ hs.1).1 with hp | hp
    · exact ⟨hp, hs.2⟩
    · have hmem := hs.2
      rw [hp] at hmem
      exact absurd hmem List.not_mem_nil
  have hhas' (s : DocumentSnapshot) (hs : h.Has s) : h'.Has s := ⟨hstates _ hs.1, hs.2⟩
  have hproject (e : Text × ProjectState) (he : e ∈ h'.workspace.projects) (d : DocumentState)
      (hd : d ∈ e.2.documents.values) : e ∈ h.workspace.projects := by
    rcases hprojects e he with he | hnone
    · exact he
    · rw [hnone] at hd
      exact absurd hd List.not_mem_nil
  exact
    { sorted := hsorted
      current := hcurrent
      apart := fun e he f hf d hde hdf =>
        hc.apart e (hproject e he d hde) f (hproject f hf d hdf) d hde hdf
      latest := fun e he s hs hd => hc.latest e (hproject e he _ hd) s (hhas s hs) hd
      valid := fun p hp => (hstates' p hp).2
      truthful := ht.mono fun d ⟨p, hp, hd⟩ => ⟨p, hhas ⟨p, d⟩ ⟨hp, hd⟩⟩
      agree := fun s t hs ht => hc.agree s t (hhas s hs) (hhas t ht)
      asked := fun s hs => hasked s (hhas s hs)
      requested := fun s hs => hrequested s (hhas s hs)
      output := by
        intro s o hs ho
        obtain ⟨hcompiled, hdated, t, ht, hstate, hmade⟩ := houtput s o (hhas s hs) ho
        exact ⟨hcompiled, hdated, t, hhas' t ht, hstate, hmade⟩
      baseline := by
        intro s n hs hn
        obtain ⟨t, hlast, hserial, hloaded, hbase⟩ :=
          hc.baseline s n (hhas s hs) (hbaseline s n (hhas s hs) hn)
        exact ⟨t, hlast.carry (fun s => ⟨hhas s, hhas' s⟩) hprojects, hserial,
          hloaded.refine hlast.has.contains hm,
          hbase.step (Or.inl (DocumentSnapshot.Keeps.refine (hhas s hs).contains hm)) hm
            hlast.has.contains hloaded (hc.inputBelow_next hlast.has)⟩ }

/-- The history in which more is known. -/
theorem remember (hc : h.Coherent) (hm : Memory.Refines h.Contains h.memory m')
    (ht : m'.Truthful h.Contains)
    (hasked : ∀ s, h.Has s → (m'.findings s.state.serial).output ≠ none →
      (m'.findings s.state.serial).isRequested = true)
    (hrequested : ∀ s, h.Has s → (m'.findings s.state.serial).isRequested = true → s.HasLoaded m')
    (houtput : ∀ s o, h.Has s → (m'.findings s.state.serial).output = some o →
      s.compiled = .ok o.compilation ∧ o.IsDated ∧ ∃ t, h.Has t ∧ t.state = s.state ∧
        ∀ bound, t.InputBelow m' bound → o.input.serial < bound)
    (hbaseline : ∀ s n, h.Has s → (m'.findings s.state.serial).baseline = some n →
      (h.memory.findings s.state.serial).baseline = some n) :
    (h.withMemory m').Coherent :=
  hc.carry (fun _ hp => hp) (fun p hp => ⟨Or.inl hp, (hc.valid p hp).mono hm.next_le⟩) hc.sorted
    (fun _ he => Or.inl he) hc.current hm ht hasked hrequested houtput hbaseline

/-! ## Requests for output -/

/-- Texts of a snapshot are loaded when somebody asks for its output. -/
theorem learn (hc : h.Coherent) (hs : h.Has s)
    (hlearn : Memory.Learns h.Contains (· = s.state.serial) h.memory m') (hloaded : s.HasLoaded m') :
    (h.withMemory m').Coherent := by
  have hm := hlearn.refines hc.truthful
  refine hc.remember hm (hc.truthful.learn hlearn) ?_ ?_ ?_ ?_
  · intro t ht ho
    rw [hlearn.output_eq] at ho
    exact hlearn.isRequested _ (hc.asked t ht ho)
  · intro t ht hrequested
    rcases hlearn.of_isRequested _ hrequested with hrequested | hserial
    · exact (hc.requested t ht hrequested).refine ht.contains hm
    · exact (hc.agrees hs ht hserial.symm).hasLoaded hloaded
  · intro t o ht ho
    rw [hlearn.output_eq] at ho
    obtain ⟨hcompiled, hdated, u, hu, hstate, hmade⟩ := hc.output t o ht ho
    exact ⟨hcompiled, hdated, u, hu, hstate, fun bound hbelow =>
      hmade bound (hbelow.before_refine hu.contains hm)⟩
  · intro t n _ hn
    rw [hlearn.baseline_eq] at hn
    exact hn

/-- A right output is kept. -/
theorem keep (hc : h.Coherent) (hs : h.Has s)
    (hrequested : (h.memory.findings s.state.serial).isRequested = true) {o : Output}
    (hcompiled : s.compiled = .ok o.compilation) (hdated : o.IsDated)
    (hmade : ∀ bound, s.InputBelow h.memory bound → o.input.serial < bound)
    (hle : h.memory.next ≤ m'.next) (hfindings : m'.findings = h.memory.findings) :
    (h.withMemory (m'.keep s.state.serial o)).Coherent := by
  have hm : Memory.Refines h.Contains h.memory (m'.keep s.state.serial o) :=
    Memory.refines_keep hle hfindings s.state.serial o
  refine hc.remember hm ⟨hc.truthful.unique, ?_⟩ ?_ ?_ ?_ ?_
  · intro d hd
    obtain ⟨hserial, hconstant, hknown⟩ := hc.truthful.sound d hd
    refine ⟨Nat.lt_of_lt_of_le hserial hle, hconstant.mono hle, ?_⟩
    intro value hvalue
    rw [Memory.loaded_keep, hfindings] at hvalue
    exact ⟨(hknown value hvalue).1, Nat.lt_of_lt_of_le (hknown value hvalue).2 hle⟩
  · intro t ht ho
    rw [Memory.isRequested_keep, hfindings]
    rw [Memory.findings_keep, hfindings] at ho
    by_cases hn : t.state.serial = s.state.serial
    · rw [hn]
      exact hrequested
    · rw [if_neg hn] at ho
      exact hc.asked t ht ho
  · intro t ht hrequested
    rw [Memory.isRequested_keep, hfindings] at hrequested
    exact (hc.requested t ht hrequested).refine ht.contains hm
  · intro t o' ht ho
    rw [Memory.findings_keep, hfindings] at ho
    -- The output is also that of the other snapshots of the state, which are compiled from the same.
    by_cases hn : t.state.serial = s.state.serial
    · rw [if_pos hn] at ho
      obtain rfl : o = o' := Option.some.inj ho
      have hagrees := hc.agrees hs ht hn.symm
      refine ⟨hagrees.compiled_eq.trans hcompiled, hdated, s, hs,
        hc.truthful.unique _ _ ⟨_, hs⟩ ⟨_, ht⟩ hn.symm, ?_⟩
      intro bound hbelow
      exact hmade bound (hbelow.before_refine hs.contains hm)
    · rw [if_neg hn] at ho
      obtain ⟨hcompiled, hdated, u, hu, hstate, hmade⟩ := hc.output t o' ht ho
      exact ⟨hcompiled, hdated, u, hu, hstate, fun bound hbelow =>
        hmade bound (hbelow.before_refine hu.contains hm)⟩
  · intro t n _ hn
    rw [Memory.findings_keep, hfindings] at hn
    by_cases hserial : t.state.serial = s.state.serial
    · rw [if_pos hserial] at hn
      exact absurd hn.symm (Option.some_ne_none n)
    · rw [if_neg hserial] at hn
      exact hn

/-- Whatever the output of a baseline was made from is below the bounds of what the baseline has. -/
theorem input_lt (hc : h.Coherent) (ht : h.IsLast t) {o : Output}
    (ho : (h.memory.findings t.state.serial).output = some o) {bound : Nat}
    (hbelow : t.InputBelow h.memory bound) : o.input.serial < bound := by
  obtain ⟨-, -, u, hu, hstate, hmade⟩ := hc.output t o ht.has ho
  exact hmade bound ((hc.agree u t hu ht.has hstate).inputBelow (ht.notNewer u hu hstate) hbelow)

/-- The output of the baseline is right for a snapshot if it is new enough. -/
theorem reuse (hc : h.Coherent) (hs : h.Has s) (hloaded : s.HasLoaded h.memory) {o : Output} {n : Nat}
    (hn : (h.memory.findings s.state.serial).baseline = some n)
    (ho : (h.memory.findings n).output = some o)
    (hnewer : ∀ bound, o.input.serial < bound → s.InputBelow h.memory bound) :
    s.compiled = .ok o.compilation ∧ o.IsDated ∧
      ∀ bound, s.InputBelow h.memory bound → o.input.serial < bound := by
  obtain ⟨t, hlast, rfl, -, hbase⟩ := hc.baseline s n hs hn
  obtain ⟨hcompiled, hdated, -⟩ := hc.output t o hlast.has ho
  have hkeeps := hbase.keeps hloaded hnewer fun bound => hc.input_lt hlast ho
  exact ⟨hkeeps.compiled_eq.trans hcompiled, hdated, fun bound hbelow =>
    hc.input_lt hlast ho (hkeeps.inputBelow hloaded hbelow)⟩

/-- The versions of what is compiled are not newer than its input. -/
theorem isDated (hc : h.Coherent) (hs : h.Has s) {o : Output}
    (holder : ∀ b, s.earlierOutput h.memory = some b → b.input.serial < o.input.serial)
    (hversion : ∀ language, o.version language =
      DocumentSnapshot.keepVersion o.input (o.text language)
        ((s.earlierOutput h.memory).map fun b => (b.text language, b.version language))) :
    o.IsDated := by
  intro language
  rw [hversion]
  refine DocumentSnapshot.keepVersion_le ?_
  intro r hr
  obtain ⟨b, hb, rfl⟩ := Option.map_eq_some_iff.mp hr
  obtain ⟨n, hn, ho⟩ := Option.bind_eq_some_iff.mp hb
  obtain ⟨t, hlast, rfl, -⟩ := hc.baseline s n hs hn
  obtain ⟨-, hdated, -⟩ := hc.output t b hlast.has ho
  exact Nat.le_trans (hdated language) (Nat.le_of_lt (holder b hb))

/-- A request for output gives what compiling gives, if it gives anything, and keeps the invariant. -/
theorem output_request (hc : h.Coherent) (hs : h.Has s) (isCalledOff : Bool) :
    (∀ o, (h.workspace.attempt (s.output isCalledOff)).1 = .ok o → s.compiled = .ok o.compilation) ∧
      Coherent { h with workspace := (h.workspace.attempt (s.output isCalledOff)).2 } := by
  have hattempt {r : Except WorkspaceFault Output} {m : Memory}
      (hrun : (s.output isCalledOff).run.run h.memory = (r, m)) :
      h.workspace.attempt (s.output isCalledOff) = (r, { h.workspace with memory := m }) := by
    rw [Workspace.attempt, Workspace.act, hrun]
  cases houtput : (h.memory.findings s.state.serial).output with
  | some o =>
      rw [hattempt (DocumentSnapshot.output_run_of_some houtput isCalledOff)]
      refine ⟨?_, hc⟩
      rintro _ ⟨⟩
      exact (hc.output s o hs houtput).1
  | none =>
      obtain ⟨m', r, m'', hrun, hlearn, hrequested, hloaded, houtcome⟩ :=
        DocumentSnapshot.output_run hs.contains hc.truthful houtput isCalledOff
      have hc' := hc.learn hs hlearn hloaded
      rw [hattempt hrun]
      cases houtcome with
      | fails hfails =>
          refine ⟨?_, hc'⟩
          rintro _ ⟨⟩
      | reuses hn ho hnewer =>
          obtain ⟨hcompiled, hdated, hmade⟩ := hc'.reuse hs hloaded hn ho hnewer
          refine ⟨?_, hc'.keep hs hrequested hcompiled hdated hmade (Nat.le_refl _) rfl⟩
          rintro _ ⟨⟩
          exact hcompiled
      | compiles hcompiled hinput holder hversion =>
          refine ⟨?_, hc'.keep hs hrequested hcompiled (hc'.isDated hs holder hversion)
            (fun bound => (hinput bound).mpr) (Nat.le_succ _) rfl⟩
          rintro _ ⟨⟩
          exact hcompiled

end Coherent

end History

end RazorLang
