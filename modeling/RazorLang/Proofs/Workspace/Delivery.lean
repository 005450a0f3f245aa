import RazorLang.Proofs.Workspace.Change
import RazorLang.Proofs.Workspace.Publication

/-!
# What the client has of a document

The client's copy of a document is an output of a snapshot that may be an old one. `History.Supersedes` says
what such a snapshot has to do with the state that the document is in now, as long as that state has no output
of its own: its versions tell whether the copy is still good, and no other output has come in between. Changes
keep this up (`History.Advance.trails_kept`, `trails_next`, `trails_first`), and so does whatever is found out.

So when a document gets an output, a text that has the version of the client's copy is the client's copy
(`History.Supersedes.text_eq`): the other versions are above everything that the copy was made from.
-/

namespace RazorLang

open DocumentState ProjectState

namespace History

variable {h h' : History} {pub pub' : Publisher} {s t : DocumentSnapshot} {d d' : DocumentState}
  {o : Output} {project project' path path' : Text} {p p' : ProjectState} {m' : Memory}

/-! ## Documents of the workspace -/

/-- A document state is the one that a project has at a path. -/
def IsCurrent (h : History) (project path : Text) (d : DocumentState) : Prop :=
  ∃ p, (project, p) ∈ h.workspace.projects ∧ (path, d) ∈ p.documents

/-- The states that are in the workspace are those of a snapshot of its history. -/
theorem IsCurrent.has (hd : h.IsCurrent project path d) (hc : h.Coherent) :
    ∃ s, h.Has s ∧ s.state = d ∧ s.project.host.path = project ∧ d.host.path = path := by
  obtain ⟨p, hp, hd⟩ := hd
  obtain ⟨hstate, hpath⟩ := hc.current _ hp
  exact ⟨⟨p, d⟩, ⟨hstate, List.mem_map_of_mem hd⟩, rfl, hpath, (hc.valid p hstate).path_eq _ hd⟩

theorem IsCurrent.contains (hd : h.IsCurrent project path d) (hc : h.Coherent) : h.Contains d := by
  obtain ⟨s, hs, rfl, -⟩ := hd.has hc
  exact ⟨_, hs⟩

/-- There is at most one state at a path. -/
theorem IsCurrent.state_eq (hd : h.IsCurrent project path d) (hc : h.Coherent)
    (hd' : h.IsCurrent project path d') : d = d' := by
  obtain ⟨p, hp, hd⟩ := hd
  obtain ⟨q, hq, hd'⟩ := hd'
  obtain rfl := hc.sorted.value_eq hp hq
  exact (hc.valid p (hc.current _ hp).1).sorted.value_eq hd hd'

/-- A state is at one path only. -/
theorem IsCurrent.path_eq (hd : h.IsCurrent project path d) (hc : h.Coherent)
    (hd' : h.IsCurrent project' path' d) : project = project' ∧ path = path' := by
  obtain ⟨p, hp, hmem⟩ := hd
  obtain ⟨q, hq, hmem'⟩ := hd'
  have hvalid := hc.valid p (hc.current _ hp).1
  have hsame := hc.apart _ hp _ hq d (List.mem_map_of_mem hmem) (List.mem_map_of_mem hmem')
  obtain ⟨rfl, rfl⟩ := Prod.mk.inj hsame
  exact ⟨rfl, (hvalid.path_eq _ hmem).symm.trans (hvalid.path_eq _ hmem')⟩

/-- What came before a document is not in the workspace any more. -/
theorem IsCurrent.ne_of_isLast (hd : h.IsCurrent project path d) (ht : h.IsLast t) : t.state ≠ d := by
  rintro rfl
  obtain ⟨p, hp, hmem⟩ := hd
  exact ht.gone _ hp (List.mem_map_of_mem hmem)

/-- A baseline was there before. -/
theorem Coherent.baseline_lt (hc : h.Coherent) (hd : h.Contains d) {n : Nat}
    (hn : (h.memory.findings d.serial).baseline = some n) : n < h.memory.next := by
  obtain ⟨q, hq⟩ := hd
  obtain ⟨t, hlast, rfl, -⟩ := hc.baseline ⟨q, d⟩ n hq hn
  exact (hc.truthful.sound _ ⟨_, hlast.has⟩).serial_lt

/-- What is in the workspace is no baseline. -/
theorem IsCurrent.baseline_ne (hd : h.IsCurrent project path d) (hc : h.Coherent)
    (hd' : h.Contains d') : (h.memory.findings d'.serial).baseline ≠ some d.serial := by
  intro hn
  obtain ⟨q, hq⟩ := hd'
  obtain ⟨u, hlast, hserial, -⟩ := hc.baseline ⟨q, d'⟩ _ hq hn
  exact hd.ne_of_isLast hlast (hc.truthful.unique _ _ ⟨_, hlast.has⟩ (hd.contains hc) hserial)

/-! ## Copies -/

/-- The client's copy of a document is an output of a snapshot. -/
structure Delivered (h : History) (pub : Publisher) (project path : Text) (t : DocumentSnapshot)
    (o : Output) : Prop where
  has : h.Has t
  output : (h.memory.findings t.state.serial).output = some o
  published : pub.published.lookup (project, path) = some o.versions
  shown : ∀ language, pub.shown language project path = some (o.text language)

/-- A state without output came after a snapshot with one: the two are compiled from the same, or something is
    newer than all that the output was made from. If there is another baseline, it has no output. -/
structure Supersedes (h : History) (t : DocumentSnapshot) (o : Output) (d : DocumentState) : Prop where
  hasLoaded : t.HasLoaded h.memory
  output : (h.memory.findings d.serial).output = none
  versions : ∀ s, h.Has s → s.state = d → DocumentSnapshot.Keeps h.memory h.memory t s ∨
    s.IsNew h.memory (o.input.serial + 1)
  baseline : ∀ n, (h.memory.findings d.serial).baseline = some n →
    n = t.state.serial ∨ (h.memory.findings n).output = none

/-- The client's copy is an output of a state, or of a snapshot before it. -/
def Trails (h : History) (pub : Publisher) (project path : Text) (d : DocumentState) : Prop :=
  ∃ t o, h.Delivered pub project path t o ∧ (t.state = d ∨ h.Supersedes t o d)

theorem Delivered.carry (hdelivered : h.Delivered pub project path t o) (hhas : h'.Has t)
    (houtput : (h'.memory.findings t.state.serial).output = (h.memory.findings t.state.serial).output)
    (hpub : pub.AgreesAt pub' project path) : h'.Delivered pub' project path t o where
  has := hhas
  output := houtput.trans hdelivered.output
  published := hpub.published.trans hdelivered.published
  shown language := (hpub.shown language).trans (hdelivered.shown language)

/-- What the client has was made from versions that have been handed out. -/
theorem Delivered.input_lt (hdelivered : h.Delivered pub project path t o) (hc : h.Coherent) :
    o.input.serial < h.memory.next := by
  obtain ⟨-, -, u, hu, -, hmade⟩ := hc.output t o hdelivered.has hdelivered.output
  exact hmade _ (hc.inputBelow_next hu)

theorem Delivered.hasLoaded (hdelivered : h.Delivered pub project path t o) (hc : h.Coherent) :
    t.HasLoaded h.memory :=
  hc.requested t hdelivered.has
    (hc.asked t hdelivered.has (hdelivered.output ▸ Option.some_ne_none o))

/-- A state that comes after another one, or is the same, supersedes what the other one does. -/
theorem Supersedes.carry (hsup : h.Supersedes t o d) (ht : h.Has t)
    (ho : o.input.serial < h.memory.next) (hm : Memory.Refines h.Contains h.memory h'.memory)
    (hsnapshots : ∀ s, h'.Has s → s.state = d' → ∃ u, h.Has u ∧ u.state = d ∧
      (DocumentSnapshot.Keeps h.memory h'.memory u s ∨ s.IsNew h'.memory h.memory.next))
    (houtput : (h'.memory.findings d'.serial).output = none)
    (hbaseline : ∀ n, (h'.memory.findings d'.serial).baseline = some n →
      n = t.state.serial ∨ (h'.memory.findings n).output = none) : h'.Supersedes t o d' where
  hasLoaded := hsup.hasLoaded.refine ht.contains hm
  output := houtput
  versions s hs hstate := by
    obtain ⟨u, hu, hustate, hkeeps | hnew⟩ := hsnapshots s hs hstate
    -- What becomes new now is newer than the copy, all of whose versions were handed out before.
    · rcases hsup.versions u hu hustate with h | h
      · exact Or.inl ((h.trans hkeeps).rebase ht.contains hsup.hasLoaded hm)
      · exact Or.inr (hkeeps.isNew h)
    · exact Or.inr (hnew.mono ho)
  baseline := hbaseline

/-! ## Changes of a project -/

namespace Advance

theorem isCurrent (ha : Advance h h' project p p') (hc : h.Coherent) :
    h'.IsCurrent project' path d ↔ project' = project ∧ (path, d) ∈ p'.documents ∨
      h.IsCurrent project' path d ∧ project' ≠ project := by
  constructor
  · rintro ⟨q, hq, hd⟩
    rcases (ha.projects hc).mp hq with heq | ⟨hq, hne⟩
    · obtain ⟨rfl, rfl⟩ := Prod.mk.inj heq
      exact Or.inl ⟨rfl, hd⟩
    · exact Or.inr ⟨⟨q, hq, hd⟩, hne⟩
  · rintro (⟨rfl, hd⟩ | ⟨⟨q, hq, hd⟩, hne⟩)
    · exact ⟨p', (ha.projects hc).mpr (Or.inl rfl), hd⟩
    · exact ⟨q, (ha.projects hc).mpr (Or.inr ⟨hq, hne⟩), hd⟩

theorem supersedes_kept (ha : Advance h h' project p p') (hc : h.Coherent) (hd : h.Contains d)
    (hdelivered : h.Delivered pub project' path t o) (hsup : h.Supersedes t o d) :
    h'.Supersedes t o d := by
  have hmemory := ha.follows.memory
  have hlt := (hc.truthful.sound d hd).serial_lt
  have hfindings := hmemory.findings_eq _ hlt
  refine hsup.carry hdelivered.has (hdelivered.input_lt hc) (hmemory.refines hc.truthful) ?_
    (hfindings ▸ hsup.output) ?_
  · intro s hs hstate
    cases ha.arrives hc hs with
    | kept hu agrees step findings => exact ⟨_, hu, agrees.state_eq.symm.trans hstate, step⟩
    | made project isMade baseline =>
        exact absurd (hstate ▸ hlt) (Nat.not_lt_of_le isMade.serial_ge)
  · intro n hn
    rw [hfindings] at hn
    rw [hmemory.findings_eq _ (hc.baseline_lt hd hn)]
    exact hsup.baseline n hn

/-- The only snapshot of a state that was made is that of the new state of the project. -/
theorem eq_of_isMade (ha : Advance h h' project p p') (hc : h.Coherent)
    (hmade : d'.IsMade h.memory h'.memory) (hs : h'.Has s) (hstate : s.state = d') : s = ⟨p', d'⟩ := by
  cases ha.arrives hc hs with
  | kept hu agrees step findings =>
      have hlt := (hc.truthful.sound _ ⟨_, hu⟩).serial_lt
      rw [← agrees.state_eq, hstate] at hlt
      exact absurd hlt (Nat.not_lt_of_le hmade.serial_ge)
  | made project isMade baseline =>
      obtain ⟨q, e⟩ := s
      obtain rfl : q = p' := project
      obtain rfl : e = d' := hstate
      rfl

theorem supersedes_next (ha : Advance h h' project p p') (hc : h.Coherent)
    (hd : d ∈ p.documents.values) (hsucceeds : Succeeds h.memory h'.memory d d')
    (hdelivered : h.Delivered pub project' path t o) (hsup : h.Supersedes t o d) :
    h'.Supersedes t o d' := by
  have hmemory := ha.follows.memory
  have hhas := ha.has_before hc hd
  refine hsup.carry hdelivered.has (hdelivered.input_lt hc) (hmemory.refines hc.truthful) ?_
    hsucceeds.output ?_
  · intro s hs hstate
    obtain rfl := ha.eq_of_isMade hc hsucceeds.toIsMade hs hstate
    exact ⟨⟨p, d⟩, hhas, rfl, ha.follows.keeps_or_isNew hsucceeds.toBecomes⟩
  · intro n hn
    rw [hsucceeds.baseline, nextBaseline] at hn
    by_cases hrequested : (h.memory.findings d.serial).isRequested = true
    · rw [if_pos hrequested] at hn
      obtain rfl := Option.some.inj hn
      rw [hmemory.findings_eq _ (hc.truthful.sound d ⟨p, hhas⟩).serial_lt]
      exact Or.inr hsup.output
    · rw [if_neg hrequested] at hn
      rw [hmemory.findings_eq _ (hc.baseline_lt ⟨p, hhas⟩ hn)]
      exact hsup.baseline n hn

/-- The state after one with an output supersedes it. -/
theorem supersedes_of_output (ha : Advance h h' project p p') (hc : h.Coherent)
    (hd : d ∈ p.documents.values) (hsucceeds : Succeeds h.memory h'.memory d d')
    (hdelivered : h.Delivered pub project' path ⟨p, d⟩ o) : h'.Supersedes ⟨p, d⟩ o d' := by
  have hm := ha.follows.memory.refines hc.truthful
  have hhas := ha.has_before hc hd
  have hloaded := hdelivered.hasLoaded hc
  refine
    { hasLoaded := hloaded.refine hhas.contains hm
      output := hsucceeds.output
      versions := ?_
      baseline := ?_ }
  · intro s hs hstate
    obtain rfl := ha.eq_of_isMade hc hsucceeds.toIsMade hs hstate
    rcases ha.follows.keeps_or_isNew hsucceeds.toBecomes with hkeeps | hnew
    · exact Or.inl (hkeeps.rebase hhas.contains hloaded hm)
    · exact Or.inr (hnew.mono (hdelivered.input_lt hc))
  · intro n hn
    have hrequested := hc.asked _ hhas (hdelivered.output ▸ Option.some_ne_none o)
    rw [hsucceeds.baseline, nextBaseline, if_pos hrequested] at hn
    exact Or.inl (Option.some.inj hn).symm

/-- The first state at a path supersedes whatever the client has of that path. -/
theorem supersedes_first (ha : Advance h h' project p p') (hc : h.Coherent)
    (hd : (path, d) ∈ p'.documents) (hmade : d.IsMade h.memory h'.memory)
    (hbaseline : (h'.memory.findings d.serial).baseline = none) (hfresh : p.document? path = none)
    (hdelivered : h.Delivered pub project' path' t o) : h'.Supersedes t o d := by
  refine
    { hasLoaded := (hdelivered.hasLoaded hc).refine hdelivered.has.contains
        (ha.follows.memory.refines hc.truthful)
      output := hmade.output
      versions := ?_
      baseline := ?_ }
  · intro s hs hstate
    obtain rfl := ha.eq_of_isMade hc hmade hs hstate
    rcases ha.follows.documents with ⟨-, hrel⟩ | hge
    · -- Where no documents were added, there was one at the path before.
      obtain ⟨e, he, hbecomes⟩ := exists_of_mem_forall₂ hrel hd
      have hpath := (hc.valid p (hc.current _ ha.before).1).path_eq e he
      have hpath' : d.host.path = path := ha.follows.valid.path_eq _ hd
      rw [← hbecomes.host_eq] at hpath
      exact absurd (hpath'.symm.trans hpath ▸ hfresh) (PathMap.get?_ne_none he)
    · exact Or.inr (Or.inl ⟨p'.documentsVersion, by simp [DocumentSnapshot.settings],
        Nat.lt_of_lt_of_le (hdelivered.input_lt hc) hge⟩)
  · intro n hn
    rw [hbaseline] at hn
    exact absurd hn.symm (Option.some_ne_none n)

theorem delivered (ha : Advance h h' project' p p') (hc : h.Coherent)
    (hdelivered : h.Delivered pub project path t o) (hpub : pub.AgreesAt pub' project path) :
    h'.Delivered pub' project path t o := by
  refine hdelivered.carry (ha.has_of_has hdelivered.has) ?_ hpub
  rw [ha.follows.memory.findings_eq _ (hc.truthful.sound _ ⟨_, hdelivered.has⟩).serial_lt]

/-- The client's copy of a document that was kept. -/
theorem trails_kept (ha : Advance h h' project' p p') (hc : h.Coherent) (hd : h.Contains d)
    (htrails : h.Trails pub project path d) (hpub : pub.AgreesAt pub' project path) :
    h'.Trails pub' project path d := by
  obtain ⟨t, o, hdelivered, hstate⟩ := htrails
  exact ⟨t, o, ha.delivered hc hdelivered hpub,
    hstate.imp_right (ha.supersedes_kept hc hd hdelivered)⟩

/-- The client's copy of a document in whose place another one came. -/
theorem trails_next (ha : Advance h h' project' p p') (hc : h.Coherent)
    (hd : d ∈ p.documents.values) (hsucceeds : Succeeds h.memory h'.memory d d')
    (htrails : h.Trails pub project path d) (hpub : pub.AgreesAt pub' project path) :
    h'.Trails pub' project path d' := by
  obtain ⟨t, o, hdelivered, rfl | hsup⟩ := htrails
  · -- The latest snapshot of the document takes the place of the one that was published.
    have hlatest : h.Delivered pub project path ⟨p, t.state⟩ o :=
      { hdelivered with has := ha.has_before hc hd }
    exact ⟨_, o, ha.delivered hc hlatest hpub,
      Or.inr (ha.supersedes_of_output hc hd hsucceeds hlatest)⟩
  · exact ⟨t, o, ha.delivered hc hdelivered hpub,
      Or.inr (ha.supersedes_next hc hd hsucceeds hdelivered hsup)⟩

/-- The client's copy from a path where there is a document again. -/
theorem trails_first (ha : Advance h h' project p p') (hc : h.Coherent)
    (hd : (path, d) ∈ p'.documents) (hmade : d.IsMade h.memory h'.memory)
    (hbaseline : (h'.memory.findings d.serial).baseline = none) (hfresh : p.document? path = none)
    (hdelivered : h.Delivered pub project path t o) (hpub : pub.AgreesAt pub' project path) :
    h'.Trails pub' project path d :=
  ⟨t, o, ha.delivered hc hdelivered hpub,
    Or.inr (ha.supersedes_first hc hd hmade hbaseline hfresh hdelivered)⟩

end Advance

/-! ## What is found out -/

theorem Trails.mono (htrails : h.Trails pub project path d) (hpub : pub.AgreesAt pub' project path) :
    h.Trails pub' project path d := by
  obtain ⟨t, o, hdelivered, hstate⟩ := htrails
  exact ⟨t, o, hdelivered.carry hdelivered.has rfl hpub, hstate⟩

/-- The client's copy of a document where no documents are added, and more may be known. -/
theorem Trails.carry (htrails : h.Trails pub project path d) (hc : h.Coherent)
    (hhas : ∀ s, h'.Has s ↔ h.Has s)
    (hm : Memory.Refines h.Contains h.memory h'.memory)
    (houtput : ∀ s, h.Has s → (h.memory.findings s.state.serial).output ≠ none →
      (h'.memory.findings s.state.serial).output = (h.memory.findings s.state.serial).output)
    (hnone : (h.memory.findings d.serial).output = none → (h'.memory.findings d.serial).output = none)
    (hbaseline : ∀ n, (h'.memory.findings d.serial).baseline = some n →
      (h.memory.findings d.serial).baseline = some n ∧
        ((h.memory.findings n).output = none → (h'.memory.findings n).output = none))
    (hpub : pub.AgreesAt pub' project path) : h'.Trails pub' project path d := by
  obtain ⟨t, o, hdelivered, hstate⟩ := htrails
  have hsome : (h.memory.findings t.state.serial).output ≠ none := by
    rw [hdelivered.output]
    exact Option.some_ne_none o
  refine ⟨t, o, hdelivered.carry ((hhas t).mpr hdelivered.has) (houtput t hdelivered.has hsome) hpub, ?_⟩
  refine hstate.imp_right fun hsup => ?_
  refine hsup.carry hdelivered.has (hdelivered.input_lt hc) hm ?_ (hnone hsup.output) ?_
  · intro s hs hs'
    have hbefore := (hhas s).mp hs
    exact ⟨s, hbefore, hs', Or.inl (DocumentSnapshot.Keeps.refine hbefore.contains hm)⟩
  · intro n hn
    obtain ⟨hn, hnone⟩ := hbaseline n hn
    exact (hsup.baseline n hn).imp_right hnone

/-- Projects may go, and empty ones may come. -/
theorem Trails.extend (htrails : h.Trails pub project path d) (hc : h.Coherent) (hd : h.Contains d)
    (hhas : ∀ s, h'.Has s ↔ h.Has s)
    (hmemory : h.memory.Extends h'.memory) (hpub : pub.AgreesAt pub' project path) :
    h'.Trails pub' project path d := by
  have hfindings {e : DocumentState} (he : h.Contains e) :
      h'.memory.findings e.serial = h.memory.findings e.serial :=
    hmemory.findings_eq _ (hc.truthful.sound e he).serial_lt
  refine htrails.carry hc hhas (hmemory.refines hc.truthful) ?_ ?_ ?_ hpub
  · intro s hs _
    rw [hfindings ⟨_, hs⟩]
  · rw [hfindings hd]
    exact id
  · intro n hn
    rw [hfindings hd] at hn
    rw [hmemory.findings_eq _ (hc.baseline_lt hd hn)]
    exact ⟨hn, id⟩

/-- Texts are loaded. -/
theorem Trails.learn {asked : Nat → Prop} (htrails : h.Trails pub project path d) (hc : h.Coherent)
    (hlearn : Memory.Learns h.Contains asked h.memory m') :
    (h.withMemory m').Trails pub project path d := by
  refine htrails.carry hc (fun _ => Iff.rfl) (hlearn.refines hc.truthful)
    (fun s _ _ => hlearn.output_eq _) ((hlearn.output_eq _).trans ·) ?_ ⟨rfl, fun _ => rfl⟩
  intro n hn
  rw [hlearn.baseline_eq] at hn
  rw [hlearn.output_eq]
  exact ⟨hn, id⟩

/-- Another document gets an output. -/
theorem Trails.keep (htrails : h.Trails pub project path d) (hc : h.Coherent) (hd : h.Contains d)
    (hs : h.Contains s.state) (hne : d ≠ s.state)
    (hbaseline : (h.memory.findings d.serial).baseline ≠ some s.state.serial)
    (hnone : (h.memory.findings s.state.serial).output = none) (hle : h.memory.next ≤ m'.next)
    (hfindings : m'.findings = h.memory.findings) (o' : Output)
    (hpub : pub.AgreesAt pub' project path) :
    (h.withMemory (m'.keep s.state.serial o')).Trails pub' project path d := by
  have hother {n : Nat} (hn : n ≠ s.state.serial) :
      (m'.keep s.state.serial o').findings n = h.memory.findings n := by
    rw [Memory.findings_keep, if_neg hn, hfindings]
  have hserial : d.serial ≠ s.state.serial := fun heq => hne (hc.truthful.unique _ _ hd hs heq)
  refine htrails.carry hc (fun _ => Iff.rfl)
    (Memory.refines_keep hle hfindings s.state.serial o') ?_
    ((congrArg Findings.output (hother hserial)).trans ·) ?_ hpub
  · intro t _ hsome
    exact congrArg Findings.output (hother fun heq => hsome (heq ▸ hnone))
  · intro n hn
    replace hn : (h.memory.findings d.serial).baseline = some n := hother hserial ▸ hn
    have hn' : n ≠ s.state.serial := fun heq => hbaseline (heq ▸ hn)
    exact ⟨hn, ((congrArg Findings.output (hother hn')).trans ·)⟩

/-! ## Versions of texts -/

/-- A text with the version of the client's copy is the client's copy. -/
theorem Supersedes.text_eq (hsup : h.Supersedes t o s.state) (hc : h.Coherent) (hs : h.Has s)
    (hloaded : s.HasLoaded h.memory) (hdelivered : h.Delivered pub project path t o)
    {isCalledOff : Bool} {o' : Output} {m'' : Memory}
    (houtcome : s.Outcome isCalledOff h.memory (.ok o') m'') {language : Language}
    (hversion : o'.version language = o.version language) : o'.text language = o.text language := by
  obtain ⟨hcompiled, hdated, -⟩ := hc.output t o hdelivered.has hdelivered.output
  -- The baseline, if it has an output, is the snapshot that the client's copy was made of.
  have hbaseline {n : Nat} {b : Output} (hn : (h.memory.findings s.state.serial).baseline = some n)
      (hb : (h.memory.findings n).output = some b) : b = o := by
    rcases hsup.baseline n hn with rfl | hnone
    · exact Option.some.inj (hb.symm.trans hdelivered.output)
    · exact absurd (hb.symm.trans hnone) (Option.some_ne_none b)
  cases houtcome with
  | reuses hn hb hnewer => rw [hbaseline hn hb]
  | compiles hcompiled' hinput holder hversions =>
      have hne (hlt : o.input.serial < o'.input.serial) : o'.input ≠ o.version language := by
        intro heq
        have hle := hdated language
        rw [← heq] at hle
        exact absurd hlt (Nat.not_lt_of_le hle)
      rw [hversions] at hversion
      cases hearlier : s.earlierOutput h.memory with
      | some b =>
          obtain ⟨n, hn, hb⟩ := Option.bind_eq_some_iff.mp hearlier
          obtain rfl := hbaseline hn hb
          rw [hearlier, Option.map_some, DocumentSnapshot.keepVersion] at hversion
          -- A text that is another one than the baseline's gets the version of the input.
          by_cases htext : (b.text language == o'.text language) = true
          · exact (beq_iff_eq.mp htext).symm
          · rw [if_neg htext] at hversion
            exact absurd hversion (hne (holder b hearlier))
      | none =>
          -- The version is that of the input, which is above the copy's unless nothing has changed.
          rw [hearlier] at hversion
          rcases hsup.versions s hs rfl with hkeeps | hnew
          · have hsame := hkeeps.compiled_eq
            rw [hcompiled, hcompiled'] at hsame
            cases language with
            | csharp => exact congrArg (·.csharp.code) (Except.ok.inj hsame)
            | html => exact congrArg (·.html.code) (Except.ok.inj hsame)
          · have hge := mt (hinput _).mp (hnew.not_inputBelow hloaded)
            exact absurd hversion (hne (Nat.le_of_not_lt hge))

/-- Where a text keeps its version only if it is the client's copy, the client has every text afterwards. -/
theorem shown_deliver
    (htrails : pub.published.lookup (s.project.host.path, s.state.host.path) ≠ none →
      h.Trails pub s.project.host.path s.state.host.path s.state)
    (htext : ∀ t o', h.Delivered pub s.project.host.path s.state.host.path t o' →
      (t.state = s.state ∨ h.Supersedes t o' s.state) →
      ∀ language, o.version language = o'.version language → o.text language = o'.text language)
    (language : Language) :
    (pub.deliver s o).shown language s.project.host.path s.state.host.path =
      some (o.text language) := by
  rw [Publisher.shown_deliver]
  cases hlookup : pub.published.lookup (s.project.host.path, s.state.host.path) with
  | none => rfl
  | some v =>
      obtain ⟨t, o', hdelivered, hstate⟩ := htrails (hlookup ▸ Option.some_ne_none v)
      obtain rfl : v = o'.versions := Option.some.inj (hlookup.symm.trans hdelivered.published)
      rw [Option.all_some, Output.version_versions]
      by_cases hversion : o'.version language = o.version language
      · rw [hversion, bne_self_eq_false, if_neg Bool.false_ne_true, hdelivered.shown,
          htext t o' hdelivered hstate language hversion.symm]
      · rw [if_pos (bne_iff_ne.mpr hversion)]

end History

end RazorLang
