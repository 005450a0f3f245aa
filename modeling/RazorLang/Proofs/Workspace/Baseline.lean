import RazorLang.Proofs.Workspace.Output
import RazorLang.Proofs.Workspace.Transition

/-!
# When an earlier output is still good

An output is used again if nothing that the document is made from has a version newer than the newest of
the output's. That this is right is a matter of how a snapshot `s` came from the earlier one `t` that the
output was made for: either everything is the same, or something has a version that is newer than all that
`t` was made from. This is `DocumentSnapshot.IsBaselineOf`. Every change keeps it
(`ProjectState.Follows.isBaselineOf`), and so does loading texts; from it follows that an output which is
used again is the one that compiling gives (`DocumentSnapshot.IsBaselineOf.keeps`).
-/

namespace RazorLang

open DocumentState

variable {docs : DocumentState → Prop} {asked : Nat → Prop} {m m' m'' : Memory} {bound bound' : Nat}

namespace Memory

/-- A later memory, in which texts that were loaded stay loaded, and no further versions are possible. -/
structure Refines (docs : DocumentState → Prop) (m m' : Memory) : Prop where
  next_le : m.next ≤ m'.next
  loaded : ∀ d, docs d → ∀ value, (m.findings d.serial).loaded = some value →
    (m'.findings d.serial).loaded = some value
  mayHave : ∀ d, docs d → ∀ v, d.MayHave m' v → d.MayHave m v

theorem Extends.refines (h : m.Extends m') (ht : m.Truthful docs) : Refines docs m m' where
  next_le := h.next_le
  loaded d hd value hvalue := by rw [h.findings_eq _ (ht.sound d hd).serial_lt, hvalue]
  mayHave d hd v hv := hv.before_extend (ht.sound d hd).serial_lt h

theorem Learns.refines (h : Learns docs asked m m') (ht : m.Truthful docs) : Refines docs m m' where
  next_le := h.next_le
  loaded _ _ value hvalue := h.loaded _ value hvalue
  mayHave _ hd _ hv := hv.before_learn hd ht h

/-- Keeping an output says nothing about texts. -/
theorem refines_keep (hle : m.next ≤ m'.next) (hfindings : m'.findings = m.findings) (state : Nat)
    (o : Output) : Refines docs m (m'.keep state o) where
  next_le := hle
  loaded d _ value hvalue := by
    rw [loaded_keep, hfindings]
    exact hvalue
  mayHave d _ v hv := hv.earlier (by rw [loaded_keep, hfindings]) hle

end Memory

/-! ## The same document, the same text -/

/-- A document that has the text of another one, and no versions but those that the other may have. -/
structure DocumentState.Keeps (m m' : Memory) (d d' : DocumentState) : Prop where
  host_eq : d'.host = d.host
  text_eq : d'.loader.text = d.loader.text
  mayHave : ∀ v, d'.MayHave m' v → d.MayHave m v

namespace DocumentState

variable {d d' d'' : DocumentState}

theorem Keeps.trans (h : Keeps m m' d d') (h' : Keeps m' m'' d' d'') : Keeps m m'' d d'' where
  host_eq := h'.host_eq.trans h.host_eq
  text_eq := h'.text_eq.trans h.text_eq
  mayHave v hv := h.mayHave v (h'.mayHave v hv)

/-- A document that has been loaded has its version for good. -/
theorem Keeps.rebase (h : Keeps m m' d d') (hd : docs d) (hloaded : (m.findings d.serial).loaded ≠ none)
    (hm : Memory.Refines docs m m') : Keeps m' m' d d' where
  host_eq := h.host_eq
  text_eq := h.text_eq
  mayHave v hv := by
    obtain ⟨value, hvalue⟩ := Option.ne_none_iff_exists'.mp hloaded
    exact (mayHave_of_loaded (hm.loaded d hd value hvalue)).mpr
      ((mayHave_of_loaded hvalue).mp (h.mayHave v hv))

theorem Becomes.keeps (h : Becomes m m' d d') :
    Keeps m m' d d' ∨ ∀ v, d'.MayHave m' v → m.next ≤ v.serial := by
  rcases h.text with ⟨htext, hv⟩ | hv
  · exact Or.inl ⟨h.host_eq, htext, hv⟩
  · exact Or.inr hv

end DocumentState

/-! ## The same snapshot -/

namespace DocumentSnapshot

variable {s t u : DocumentSnapshot} {o : Output}

/-- A snapshot that is compiled from the same as another one, with the same versions. -/
structure Keeps (m m' : Memory) (t s : DocumentSnapshot) : Prop where
  host_eq : s.project.host = t.project.host
  discovery_eq : s.project.discovery = t.project.discovery
  settings_eq : s.settings = t.settings
  parts : List.Forall₂ (DocumentState.Keeps m m') t.parts s.parts

theorem compiled_congr (hhost : s.project.host = t.project.host)
    (hdiscovery : s.project.discovery = t.project.discovery)
    (hparts : List.Forall₂ (fun d d' : DocumentState =>
      d'.host = d.host ∧ d'.loader.text = d.loader.text) t.parts s.parts) :
    s.compiled = t.compiled := by
  obtain ⟨⟨hstate, htext⟩, himports⟩ := List.forall₂_cons.mp hparts
  have hsources : ((s.project.importsOf s.state.host).map fun i => sourceOf i.host i.loader.text) =
      (t.project.importsOf t.state.host).map fun i => sourceOf i.host i.loader.text := by
    rw [← List.forall₂_eq_eq_eq, List.forall₂_map_left_iff, List.forall₂_map_right_iff]
    refine himports.flip.imp ?_
    rintro d' d ⟨hhost, htext⟩
    rw [hhost, htext]
  rw [compiled, compiled, compile, compile, ProjectState.engine, ProjectState.engine, hsources, hhost,
    hdiscovery, hstate, htext]

theorem Keeps.compiled_eq (h : Keeps m m' t s) : s.compiled = t.compiled :=
  compiled_congr h.host_eq h.discovery_eq (h.parts.imp fun _ _ hd => ⟨hd.host_eq, hd.text_eq⟩)

theorem Keeps.trans (h : Keeps m m' t u) (h' : Keeps m' m'' u s) : Keeps m m'' t s where
  host_eq := h'.host_eq.trans h.host_eq
  discovery_eq := h'.discovery_eq.trans h.discovery_eq
  settings_eq := h'.settings_eq.trans h.settings_eq
  parts := forall₂_comp h.parts h'.parts fun _ _ _ hd hd' => hd.trans hd'

/-- A snapshot stays the same while more becomes known. -/
theorem Keeps.refine (hs : ∀ d ∈ s.parts, docs d) (hm : Memory.Refines docs m m') : Keeps m m' s s where
  host_eq := rfl
  discovery_eq := rfl
  settings_eq := rfl
  parts := List.forall₂_same.mpr fun d hd => ⟨rfl, rfl, hm.mayHave d (hs d hd)⟩

theorem Keeps.rebase (h : Keeps m m' t s) (ht : ∀ d ∈ t.parts, docs d) (hloaded : t.HasLoaded m)
    (hm : Memory.Refines docs m m') : Keeps m' m' t s where
  host_eq := h.host_eq
  discovery_eq := h.discovery_eq
  settings_eq := h.settings_eq
  parts := by
    refine ((List.forall₂_and_left _ _).mpr ⟨fun d hd => hd, h.parts⟩).imp ?_
    rintro d d' ⟨hd, hkeeps⟩
    exact hkeeps.rebase (ht d hd) (hloaded d hd) hm

/-- Whatever version something turns out to have, it is not below a bound. -/
def IsNew (s : DocumentSnapshot) (m : Memory) (bound : Nat) : Prop :=
  (∃ v ∈ s.settings, bound ≤ v.serial) ∨ ∃ d ∈ s.parts, ∀ v, d.MayHave m v → bound ≤ v.serial

theorem IsNew.mono (h : s.IsNew m bound) (hle : bound' ≤ bound) : s.IsNew m bound' := by
  rcases h with ⟨v, hv, hge⟩ | ⟨d, hd, hge⟩
  · exact Or.inl ⟨v, hv, Nat.le_trans hle hge⟩
  · exact Or.inr ⟨d, hd, fun v hv => Nat.le_trans hle (hge v hv)⟩

theorem Keeps.isNew (h : Keeps m m' t s) (hnew : t.IsNew m bound) : s.IsNew m' bound := by
  rcases hnew with ⟨v, hv, hge⟩ | ⟨d, hd, hge⟩
  · exact Or.inl ⟨v, h.settings_eq ▸ hv, hge⟩
  · obtain ⟨d', hd', hkeeps⟩ := exists_of_mem_forall₂_left h.parts hd
    exact Or.inr ⟨d', hd', fun v hv => hge v (hkeeps.mayHave v hv)⟩

/-- What is new has a version that shows it, once it has been loaded. -/
theorem IsNew.not_inputBelow (h : s.IsNew m bound) (hloaded : s.HasLoaded m) :
    ¬ s.InputBelow m bound := by
  intro hbelow
  rcases h with ⟨v, hv, hge⟩ | ⟨d, hd, hge⟩
  · exact absurd (hbelow.settings v hv) (Nat.not_lt_of_le hge)
  · obtain ⟨value, hvalue⟩ := Option.ne_none_iff_exists'.mp (hloaded d hd)
    exact absurd (hbelow.texts d hd value hvalue)
      (Nat.not_lt_of_le (hge _ ((mayHave_of_loaded hvalue).mpr rfl)))

/-- What has been loaded has its versions for good. -/
theorem InputBelow.refine (h : s.InputBelow m bound) (hs : ∀ d ∈ s.parts, docs d)
    (hloaded : s.HasLoaded m) (hm : Memory.Refines docs m m') : s.InputBelow m' bound where
  settings := h.settings
  texts d hd value hvalue := by
    obtain ⟨w, hw⟩ := Option.ne_none_iff_exists'.mp (hloaded d hd)
    rw [hm.loaded d (hs d hd) w hw] at hvalue
    rw [← Option.some.inj hvalue]
    exact h.texts d hd w hw

theorem InputBelow.before_refine (h : s.InputBelow m' bound) (hs : ∀ d ∈ s.parts, docs d)
    (hm : Memory.Refines docs m m') : s.InputBelow m bound where
  settings := h.settings
  texts d hd value hvalue := h.texts d hd value (hm.loaded d (hs d hd) value hvalue)

theorem HasLoaded.refine (h : s.HasLoaded m) (hs : ∀ d ∈ s.parts, docs d)
    (hm : Memory.Refines docs m m') : s.HasLoaded m' := by
  intro d hd
  obtain ⟨value, hvalue⟩ := Option.ne_none_iff_exists'.mp (h d hd)
  rw [hm.loaded d (hs d hd) value hvalue]
  exact Option.some_ne_none _

/-- A snapshot that has loaded its texts has the versions of the one that it keeps. -/
theorem Keeps.inputBelow (h : Keeps m m t s) (hloaded : s.HasLoaded m) (hbelow : s.InputBelow m bound) :
    t.InputBelow m bound where
  settings := h.settings_eq ▸ hbelow.settings
  texts d hd value hvalue := by
    obtain ⟨d', hd', hkeeps⟩ := exists_of_mem_forall₂_left h.parts hd
    obtain ⟨w, hw⟩ := Option.ne_none_iff_exists'.mp (hloaded d' hd')
    have hsame : w.version = value.version :=
      (mayHave_of_loaded hvalue).mp (hkeeps.mayHave _ ((mayHave_of_loaded hw).mpr rfl))
    rw [← hsame]
    exact hbelow.texts d' hd' w hw

/-! ## Baselines -/

/-- The versions of a snapshot tell whether what was made for an earlier one is still good: everything is
    the same, or something is newer than all that the earlier one was made from. -/
def IsBaselineOf (m : Memory) (t s : DocumentSnapshot) : Prop :=
  Keeps m m t s ∨ ∃ bound ≤ m.next, t.InputBelow m bound ∧ s.IsNew m bound

/-- It stays so if a snapshot is kept, or if something in it becomes new. -/
theorem IsBaselineOf.step (h : IsBaselineOf m t u) (hu : Keeps m m' u s ∨ s.IsNew m' m.next)
    (hm : Memory.Refines docs m m') (ht : ∀ d ∈ t.parts, docs d) (hloaded : t.HasLoaded m)
    (hbelow : t.InputBelow m m.next) : IsBaselineOf m' t s := by
  rcases hu with hkeeps | hnew
  · rcases h with h | ⟨bound, hle, hbelow, hnew⟩
    · exact Or.inl ((h.trans hkeeps).rebase ht hloaded hm)
    · exact Or.inr ⟨bound, Nat.le_trans hle hm.next_le, hbelow.refine ht hloaded hm,
        hkeeps.isNew hnew⟩
  · exact Or.inr ⟨m.next, hm.next_le, hbelow.refine ht hloaded hm, hnew⟩

/-- If an output for the baseline is as new as the snapshot, then nothing has changed. -/
theorem IsBaselineOf.keeps (h : IsBaselineOf m t s) (hloaded : s.HasLoaded m)
    (hnewer : ∀ bound, o.input.serial < bound → s.InputBelow m bound)
    (hmade : ∀ bound, t.InputBelow m bound → o.input.serial < bound) : Keeps m m t s := by
  rcases h with h | ⟨bound, -, hbelow, hnew⟩
  · exact h
  · exact absurd (hnewer bound (hmade bound hbelow)) (hnew.not_inputBelow hloaded)

end DocumentSnapshot

/-! ## Changes -/

/-- After a change, what comes of a document is compiled from the same as before, or something is new. -/
theorem ProjectState.Follows.keeps_or_isNew {p p' : ProjectState} (h : Follows m m' p p')
    {d d' : DocumentState} (hd : Becomes m m' d d') :
    DocumentSnapshot.Keeps m m' ⟨p, d⟩ ⟨p', d'⟩ ∨ DocumentSnapshot.IsNew ⟨p', d'⟩ m' m.next := by
  rcases h.configuration with ⟨hhost, hconfiguration⟩ | hge
  · rcases h.discovery with ⟨hdiscovery, hdiscoveryVersion⟩ | hge
    · rcases h.documents with ⟨hdocumentsVersion, hrel⟩ | hge
      · -- All settings are the same, so it depends on the texts of the document and its imports.
        have hparts : List.Forall₂ (Becomes m m') (DocumentSnapshot.parts ⟨p, d⟩)
            (DocumentSnapshot.parts ⟨p', d'⟩) := by
          refine List.Forall₂.cons hd ?_
          rw [hd.host_eq]
          exact importsOf_rel (fun _ _ h => h.host_eq) hrel d.host
        by_cases hnew : ∃ e ∈ DocumentSnapshot.parts ⟨p', d'⟩, ∀ v, e.MayHave m' v → m.next ≤ v.serial
        · exact Or.inr (Or.inr hnew)
        · refine Or.inl ⟨hhost, hdiscovery, ?_, ?_⟩
          · simp only [DocumentSnapshot.settings, hconfiguration, hdiscoveryVersion, hdocumentsVersion]
          · refine (((List.forall₂_and_left _ _).mpr ⟨fun e he => he, hparts.flip⟩).imp ?_).flip
            rintro e' e ⟨he, hbecomes⟩
            rcases hbecomes.keeps with hkeeps | hge
            · exact hkeeps
            · exact absurd ⟨e', he, hge⟩ hnew
      · exact Or.inr (Or.inl ⟨_, by simp [DocumentSnapshot.settings], hge⟩)
    · exact Or.inr (Or.inl ⟨p'.discoveryVersion, by simp [DocumentSnapshot.settings], hge⟩)
  · exact Or.inr (Or.inl ⟨p'.configurationVersion, by simp [DocumentSnapshot.settings], hge⟩)

end RazorLang
