import RazorLang.Proofs.Workspace.Delivery
import RazorLang.Proofs.Workspace.Scheduling

/-!
# Nothing that is due is forgotten

`History.Prompt` is the invariant of a workspace with a publisher: what waits are open documents in the states
that they are in now, or documents that are gone; what the client has goes back to snapshots of the history;
and each open document waits, or was published, or cannot be compiled. There is one lemma for changes in which
a project advances (`History.Prompt.advance`), and one for those in which projects come and go
(`History.Prompt.extend`), each put together from one for each part of the invariant.
-/

namespace RazorLang

open ProjectState (Affects)

namespace History

variable {h h' : History} {pub pub' : Publisher} {work : List (Text × DocumentSnapshot)}
  {x : Text × DocumentSnapshot} {d : DocumentState} {project path : Text} {p p' : ProjectState}
  {isTouched isGone : Text → Prop}

/-! ## The invariant -/

/-- A document that is gone, and that the client has nothing of. Nothing came in its place. -/
structure IsOver (h : History) (pub : Publisher) (s : DocumentSnapshot) : Prop where
  absent : ∀ d, ¬ h.IsCurrent s.project.host.path s.state.host.path d
  gone : ∀ project path, ¬ h.IsCurrent project path s.state
  baseline_ne : ∀ d, h.Contains d → (h.memory.findings d.serial).baseline ≠ some s.state.serial
  unpublished : pub.published.lookup (s.project.host.path, s.state.host.path) = none

/-- Work for an open document in the state that it is in now, or for one that is gone. -/
structure IsDue (h : History) (pub : Publisher) (x : Text × DocumentSnapshot) : Prop where
  key_eq : x.1 = x.2.workKey
  has : h.Has x.2
  separated : '|' ∉ x.2.project.host.path
  isOpen : h.workspace.isOpen x.2.state.host.path = true
  status : h.IsCurrent x.2.project.host.path x.2.state.host.path x.2.state ∨ h.IsOver pub x.2

/-- What the client has of a document goes back to a snapshot, and tells what the document needs now. -/
structure Copied (h : History) (pub : Publisher) (project path : Text) : Prop where
  delivered : ∃ t o, h.Delivered pub project path t o
  trails : ∀ d, h.IsCurrent project path d → h.Trails pub project path d

/-- The open document waits to be published, or it has been published, or it cannot be compiled. -/
def Covers (h : History) (pub : Publisher) (work : List (Text × DocumentSnapshot))
    (project path : Text) (d : DocumentState) : Prop :=
  (∃ x ∈ work, x.2.state = d) ∨
    (pub.published.lookup (project, path) ≠ none ∧ (h.memory.findings d.serial).output ≠ none) ∨
      ∀ s, h.Has s → s.state = d → ∀ c, s.compiled ≠ .ok c

/-- The invariant of a workspace with a publisher that has some work left. -/
structure Prompt (h : History) (pub : Publisher) (work : List (Text × DocumentSnapshot)) : Prop where
  coherent : h.Coherent
  importsExactly : ∀ p ∈ h.states, p.ImportsExactly
  isClosing : h.workspace.isClosing = false
  separated : ∀ e ∈ h.workspace.projects, '|' ∉ e.1
  keys : (work.map Prod.fst).Nodup
  due : ∀ x ∈ work, h.IsDue pub x
  published : ∀ project path, pub.published.lookup (project, path) ≠ none → h.Copied pub project path
  covered : ∀ project path d, h.IsCurrent project path d → h.workspace.isOpen path = true →
    h.Covers pub work project path d

theorem prompt_start : Prompt {} {} [] where
  coherent := coherent_start
  importsExactly _ hp := absurd hp List.not_mem_nil
  isClosing := rfl
  separated _ he := absurd he List.not_mem_nil
  keys := List.nodup_nil
  due _ hx := absurd hx List.not_mem_nil
  published _ _ hsome := absurd rfl hsome
  covered _ _ _ hd := by
    obtain ⟨p, hp, -⟩ := hd
    exact absurd hp List.not_mem_nil

namespace IsDue

/-- Work for a document that is there is for where it is. -/
theorem path_eq (hx : h.IsDue pub x) (hc : h.Coherent) (hd : h.IsCurrent project path x.2.state) :
    x.2.project.host.path = project ∧ x.2.state.host.path = path := by
  rcases hx.status with hcurrent | hover
  · exact hcurrent.path_eq hc hd
  · exact absurd hd (hover.gone project path)

/-- Work for a document that is there is for the state that it is in. -/
theorem state_eq (hx : h.IsDue pub x) (hc : h.Coherent)
    (hd : h.IsCurrent x.2.project.host.path x.2.state.host.path d) : x.2.state = d := by
  rcases hx.status with hcurrent | hover
  · exact hcurrent.state_eq hc hd
  · exact absurd hd (hover.absent d)

theorem baseline_ne (hx : h.IsDue pub x) (hc : h.Coherent) (hd : h.Contains d) :
    (h.memory.findings d.serial).baseline ≠ some x.2.state.serial := by
  rcases hx.status with hcurrent | hover
  · exact hcurrent.baseline_ne hc hd
  · exact hover.baseline_ne d hd

end IsDue

/-! ## Projects come and go -/

/-- Projects go, except for those that stay, and empty ones come; documents may be closed. The publisher forgets
    what it has of the projects that go, and nothing else. -/
structure Turnover (h h' : History) (pub pub' : Publisher) (stays : Text → Prop) : Prop where
  coherent : h'.Coherent
  has : ∀ s, h'.Has s ↔ h.Has s
  projects : ∀ e ∈ h'.workspace.projects, e ∈ h.workspace.projects ∨ e.2.documents = []
  memory : h.memory.Extends h'.memory
  kept : ∀ e ∈ h.workspace.projects, stays e.1 → e ∈ h'.workspace.projects
  inhabited : ∀ e ∈ h'.workspace.projects, e.2.documents ≠ [] → stays e.1
  opened : ∀ path, h'.workspace.isOpen path = true → h.workspace.isOpen path = true
  agrees : ∀ project path, stays project → pub.AgreesAt pub' project path
  forgotten : ∀ project path, ¬ stays project → pub'.published.lookup (project, path) = none

namespace Turnover

variable {stays : Text → Prop}

theorem isCurrent (ht : h.Turnover h' pub pub' stays) (hd : h.IsCurrent project path d) (hproject : stays project) :
    h'.IsCurrent project path d := by
  obtain ⟨p, hmem, hd⟩ := hd
  exact ⟨p, ht.kept _ hmem hproject, hd⟩

/-- Documents are only where they were before. -/
theorem isCurrent_before (ht : h.Turnover h' pub pub' stays) (hd : h'.IsCurrent project path d) :
    h.IsCurrent project path d ∧ stays project := by
  obtain ⟨p, hmem, hd⟩ := hd
  have hne : p.documents ≠ [] := List.ne_nil_of_mem hd
  exact ⟨⟨p, (ht.projects _ hmem).resolve_right hne, hd⟩, ht.inhabited _ hmem hne⟩

/-- Work for a document that stays is due as before; the others are over. -/
theorem isDue (ht : h.Turnover h' pub pub' stays) (hc : h.Coherent) (hdue : h.IsDue pub x)
    (hopened : h'.workspace.isOpen x.2.state.host.path = true) : h'.IsDue pub' x := by
  have hbaseline (d : DocumentState) (hd : h'.Contains d) :
      (h'.memory.findings d.serial).baseline ≠ some x.2.state.serial := by
    obtain ⟨q, hq⟩ := hd
    have hd : h.Contains d := ⟨q, (ht.has ⟨q, d⟩).mp hq⟩
    rw [ht.memory.findings_eq _ (hc.truthful.sound d hd).serial_lt]
    exact hdue.baseline_ne hc hd
  refine ⟨hdue.key_eq, (ht.has _).mpr hdue.has, hdue.separated, hopened, ?_⟩
  by_cases hproject : stays x.2.project.host.path
  · refine hdue.status.imp (ht.isCurrent · hproject) fun hover => ?_
    exact ⟨fun d hd => hover.absent d (ht.isCurrent_before hd).1,
      fun _ _ hd => hover.gone _ _ (ht.isCurrent_before hd).1, hbaseline,
      (ht.agrees _ _ hproject).published.trans hover.unpublished⟩
  · -- The project is gone, and the document with it.
    refine Or.inr ⟨fun d hd => hproject (ht.isCurrent_before hd).2, ?_, hbaseline, ht.forgotten _ _ hproject⟩
    intro project path hd
    obtain ⟨hd, hstays⟩ := ht.isCurrent_before hd
    exact hproject ((hdue.path_eq hc hd).1 ▸ hstays)

theorem copied (ht : h.Turnover h' pub pub' stays) (hp : h.Prompt pub work)
    (hsome : pub'.published.lookup (project, path) ≠ none) : h'.Copied pub' project path := by
  have hc := hp.coherent
  have hproject : stays project := by
    by_contra hnot
    exact hsome (ht.forgotten project path hnot)
  have hagrees := ht.agrees project path hproject
  rw [hagrees.published] at hsome
  obtain ⟨⟨t, o, hdelivered⟩, htrails⟩ := hp.published project path hsome
  refine ⟨⟨t, o, hdelivered.carry ((ht.has t).mpr hdelivered.has) ?_ hagrees⟩, ?_⟩
  · rw [ht.memory.findings_eq _ (hc.truthful.sound _ ⟨_, hdelivered.has⟩).serial_lt]
  · intro d hd
    have hd := (ht.isCurrent_before hd).1
    exact (htrails d hd).extend hc (hd.contains hc) ht.has ht.memory hagrees

theorem covers (ht : h.Turnover h' pub pub' stays) (hp : h.Prompt pub work) (hd : h'.IsCurrent project path d)
    (hopened : h'.workspace.isOpen path = true) : h'.Covers pub' work project path d := by
  have hc := hp.coherent
  obtain ⟨hd, hproject⟩ := ht.isCurrent_before hd
  have hlt := (hc.truthful.sound d (hd.contains hc)).serial_lt
  rcases hp.covered project path d hd (ht.opened path hopened) with hwait | ⟨hsome, hout⟩ | hfails
  · exact Or.inl hwait
  · refine Or.inr (Or.inl ⟨?_, ?_⟩)
    · rw [(ht.agrees project path hproject).published]
      exact hsome
    · rw [ht.memory.findings_eq _ hlt]
      exact hout
  · exact Or.inr (Or.inr fun s hs => hfails s ((ht.has s).mp hs))

end Turnover

theorem Prompt.extend {stays : Text → Prop} (hp : h.Prompt pub work) (ht : h.Turnover h' pub pub' stays)
    (hexact : ∀ p ∈ h'.states, p.ImportsExactly) (hclosing : h'.workspace.isClosing = false)
    (hseparated : ∀ e ∈ h'.workspace.projects, '|' ∉ e.1)
    (hwork : ∀ x ∈ work, h'.workspace.isOpen x.2.state.host.path = true) : h'.Prompt pub' work where
  coherent := ht.coherent
  importsExactly := hexact
  isClosing := hclosing
  separated := hseparated
  keys := hp.keys
  due x hx := ht.isDue hp.coherent (hp.due x hx) (hwork x hx)
  published _ _ hsome := ht.copied hp hsome
  covered _ _ _ hd hopened := ht.covers hp hd hopened

/-! ## A project advances -/

/-- A project advances, and the publisher takes note of it. Only touched documents are opened, each of which is
    in no other project; and what waits stays open, and is not removed. -/
structure Announced (h h' : History) (pub pub' : Publisher) (p p' : ProjectState)
    (isTouched isGone : Text → Prop) : Prop where
  advance : Advance h h' p'.host.path p p'
  affects : Affects p p' isTouched isGone
  notes : pub.Notes pub' h'.workspace p' isTouched isGone
  opened : ∀ path, h'.workspace.isOpen path = true → h.workspace.isOpen path = true ∨
    isTouched path ∧
      ∀ e ∈ h.workspace.projects, (e.2.document? path).isSome = true → e.1 = p'.host.path
  waits : ∀ x ∈ pub.queue.waiting, ¬ isGone x.2.state.host.path ∧
    h'.workspace.isOpen x.2.state.host.path = true

namespace Announced

theorem isCurrent (ha : h.Announced h' pub pub' p p' isTouched isGone) (hc : h.Coherent)
    (hd : (path, d) ∈ p'.documents) : h'.IsCurrent p'.host.path path d :=
  ⟨p', (ha.advance.projects hc).mpr (Or.inl rfl), hd⟩

theorem isCurrent_before (ha : h.Announced h' pub pub' p p' isTouched isGone)
    (hd : (path, d) ∈ p.documents) : h.IsCurrent p'.host.path path d :=
  ⟨p, ha.advance.before, hd⟩

/-- A document that is there afterwards was there before, or its path was touched. -/
theorem isCurrent_or_isTouched (ha : h.Announced h' pub pub' p p' isTouched isGone) (hc : h.Coherent)
    (hd : h'.IsCurrent project path d) :
    h.IsCurrent project path d ∨ project = p'.host.path ∧ (path, d) ∈ p'.documents ∧ isTouched path := by
  rcases (ha.advance.isCurrent hc).mp hd with ⟨rfl, hmem⟩ | ⟨hold, -⟩
  · exact (ha.affects.kept _ hmem).imp ha.isCurrent_before fun htouched => ⟨rfl, hmem, htouched⟩
  · exact Or.inl hold

/-- A state that was there before and is there afterwards was there all the time. -/
theorem isCurrent_of_contains (ha : h.Announced h' pub pub' p p' isTouched isGone) (hc : h.Coherent)
    (hold : h.Contains d) (hd : h'.IsCurrent project path d) : ∃ path, h.IsCurrent project path d := by
  rcases (ha.advance.isCurrent hc).mp hd with ⟨rfl, hmem⟩ | ⟨hbefore, -⟩
  · have hvalue := ha.advance.mem_before hc (List.mem_map_of_mem (f := Prod.snd) hmem) hold
    obtain ⟨e, he, rfl⟩ := List.mem_map.mp hvalue
    exact ⟨e.1, ha.isCurrent_before he⟩
  · exact ⟨path, hbefore⟩

theorem separated (ha : h.Announced h' pub pub' p p' isTouched isGone)
    (hp : h.Prompt pub pub.queue.waiting) : ∀ e ∈ h'.workspace.projects, '|' ∉ e.1 := by
  intro e he
  rcases (ha.advance.projects hp.coherent).mp he with rfl | ⟨he, -⟩
  · exact hp.separated (p'.host.path, p) ha.advance.before
  · exact hp.separated e he

/-- What waits afterwards: open documents of the new state, all that are touched among them, and work that
    has another key. -/
theorem exists_scheduled (ha : h.Announced h' pub pub' p p' isTouched isGone)
    (hp : h.Prompt pub pub.queue.waiting) : ∃ documents : List DocumentSnapshot,
      (∀ s ∈ documents, h'.IsDue pub' (s.workKey, s) ∧
        h'.IsCurrent s.project.host.path s.state.host.path s.state) ∧
      (∀ path d, (path, d) ∈ p'.documents → isTouched path → h'.workspace.isOpen path = true →
        ∃ s ∈ documents, s.project = p' ∧ s.state = d) ∧
      (pub'.queue.waiting.map Prod.fst).Nodup ∧
      ∀ x, x ∈ pub'.queue.waiting ↔ (∃ s ∈ documents, x = (s.workKey, s)) ∨
        x ∈ pub.queue.waiting ∧ ∀ s ∈ documents, s.workKey ≠ x.1 := by
  have hc := hp.coherent
  have hc' := ha.advance.coherent hc
  have hafter : (p'.host.path, p') ∈ h'.workspace.projects :=
    (ha.advance.projects hc).mpr (Or.inl rfl)
  have hbar := ha.separated hp _ hafter
  obtain ⟨documents, hqueue, hdocuments, hscheduled⟩ := ha.notes.scheduled
  have hnew : ∀ s ∈ documents, h'.IsDue pub' (s.workKey, s) ∧
      h'.IsCurrent s.project.host.path s.state.host.path s.state := by
    intro s hs
    obtain ⟨q, d⟩ := s
    obtain ⟨rfl, hmem, hopened⟩ := hdocuments _ hs
    have hcurrent := ha.isCurrent hc hmem
    exact ⟨⟨rfl, ⟨(hc'.current _ hafter).1, List.mem_map_of_mem hmem⟩, hbar, hopened,
      Or.inl hcurrent⟩, hcurrent⟩
  -- two of the scheduled documents that have one key are the same document
  obtain ⟨waiting, hfoldl, hkeys, hmem⟩ := Publisher.foldl_schedule documents
    (by
      intro s hs t ht hkey
      obtain ⟨q, d⟩ := s
      obtain ⟨r, e⟩ := t
      obtain ⟨hq, hd, -⟩ := hdocuments _ hs
      obtain ⟨hr, he, -⟩ := hdocuments _ ht
      obtain ⟨-, hpath⟩ := (DocumentSnapshot.workKey_inj (hnew _ hs).1.separated
        (hnew _ ht).1.separated).mp hkey
      rw [← hpath] at he
      obtain rfl : q = p' := hq
      obtain rfl : r = q := hr
      obtain rfl : d = e := ha.advance.follows.valid.sorted.value_eq hd he
      rfl)
    hp.keys
  obtain rfl : pub'.queue.waiting = waiting := by rw [hqueue, hfoldl]
  exact ⟨documents, hnew, fun path d hd htouched hopened =>
    ⟨_, hscheduled _ hd htouched hopened, rfl, rfl⟩, hkeys, hmem⟩

/-- No state goes back to one that is over: what is made now has its baseline from one that was there. -/
theorem baseline_ne (ha : h.Announced h' pub pub' p p' isTouched isGone) (hc : h.Coherent) {s : DocumentSnapshot}
    (hhas : h.Has s) (hover : h.IsOver pub s) (hd : h'.Contains d) :
    (h'.memory.findings d.serial).baseline ≠ some s.state.serial := by
  obtain ⟨q, hq⟩ := hd
  intro hn
  cases ha.advance.arrives hc (s := ⟨q, d⟩) hq with
  | kept hu agrees step findings =>
      rw [findings] at hn
      exact hover.baseline_ne _ ⟨_, hu⟩ hn
  | made project isMade baseline =>
      rcases baseline with hnone | ⟨e, he, hsucceeds, -⟩
      · exact absurd (hn.symm.trans hnone) (Option.some_ne_none _)
      · have he' := ha.advance.has_before hc he
        rw [hsucceeds.baseline, DocumentState.nextBaseline] at hn
        by_cases hrequested : (h.memory.findings e.serial).isRequested = true
        · rw [if_pos hrequested] at hn
          obtain ⟨f, hf, rfl⟩ := List.mem_map.mp he
          have heq : f.2 = s.state := hc.truthful.unique _ _ ⟨_, he'⟩ ⟨_, hhas⟩ (Option.some.inj hn)
          exact hover.gone _ f.1 (heq ▸ ha.isCurrent_before hf)
        · rw [if_neg hrequested] at hn
          exact hover.baseline_ne e ⟨_, he'⟩ hn

/-- Work that was not replaced is still due. -/
theorem isDue (ha : h.Announced h' pub pub' p p' isTouched isGone)
    (hp : h.Prompt pub pub.queue.waiting) (hx : x ∈ pub'.queue.waiting) : h'.IsDue pub' x := by
  have hc := hp.coherent
  obtain ⟨documents, hnew, hscheduled, -, hmem⟩ := ha.exists_scheduled hp
  rcases (hmem x).mp hx with ⟨s, hs, rfl⟩ | ⟨hx, hother⟩
  · exact (hnew s hs).1
  obtain ⟨hkey, hhas, hbar, -, hstatus⟩ := hp.due x hx
  obtain ⟨hstays, hopened⟩ := ha.waits x hx
  -- Work for a touched document would have been replaced.
  have huntouched {d : DocumentState} (hproject : x.2.project.host.path = p'.host.path)
      (hd : (x.2.state.host.path, d) ∈ p'.documents) : ¬ isTouched x.2.state.host.path := by
    intro htouched
    obtain ⟨s, hs, rfl, rfl⟩ := hscheduled _ d hd htouched hopened
    refine hother s hs ?_
    rw [hkey, DocumentSnapshot.workKey, DocumentSnapshot.workKey, hproject,
      ha.advance.follows.valid.path_eq _ hd]
  refine ⟨hkey, ha.advance.has_of_has hhas, hbar, hopened, ?_⟩
  rcases hstatus with hcurrent | hover
  · refine Or.inl ((ha.advance.isCurrent hc).mpr ?_)
    by_cases hproject : x.2.project.host.path = p'.host.path
    · obtain ⟨q, hq, hd⟩ := hproject ▸ hcurrent
      obtain rfl := hc.sorted.value_eq hq ha.advance.before
      obtain ⟨d', hd'⟩ := (ha.affects.stays _ hd).resolve_left hstays
      have hkept := (ha.affects.kept _ hd').resolve_right (huntouched hproject hd')
      obtain rfl := (hc.valid _ (hc.current _ ha.advance.before).1).sorted.value_eq hkept hd
      exact Or.inl ⟨hproject, hd'⟩
    · exact Or.inr ⟨hcurrent, hproject⟩
  · -- Nothing can have come back to the path: it would be touched, and the work replaced.
    refine Or.inr ⟨?_, ?_, fun d hd => ha.baseline_ne hc hhas hover hd, ?_⟩
    · intro d hd
      rcases ha.isCurrent_or_isTouched hc hd with hd | ⟨hproject, hd, htouched⟩
      · exact hover.absent d hd
      · exact huntouched hproject hd htouched
    · intro project path hd
      obtain ⟨path, hd⟩ := ha.isCurrent_of_contains hc ⟨_, hhas⟩ hd
      exact hover.gone project path hd
    · rcases ha.notes.published (x.2.project.host.path, x.2.state.host.path) with hsame | ⟨hnone, -⟩
      · exact hsame.trans hover.unpublished
      · exact hnone

/-- What the client has goes back to what it went back to before, or is superseded. -/
theorem copied (ha : h.Announced h' pub pub' p p' isTouched isGone)
    (hp : h.Prompt pub pub.queue.waiting) (hsome : pub'.published.lookup (project, path) ≠ none) :
    h'.Copied pub' project path := by
  have hc := hp.coherent
  have hsame := (ha.notes.published (project, path)).resolve_right fun h => hsome h.1
  have hagrees : pub.AgreesAt pub' project path :=
    ⟨hsame, fun language => by rw [Publisher.shown, ha.notes.sent]; rfl⟩
  obtain ⟨⟨t, o, hdelivered⟩, htrails⟩ := hp.published project path (hsame ▸ hsome)
  refine ⟨⟨t, o, ha.advance.delivered hc hdelivered hagrees⟩, ?_⟩
  intro d' hd'
  rcases (ha.advance.isCurrent hc).mp hd' with ⟨rfl, hmem⟩ | ⟨hd, -⟩
  · cases ha.advance.follows.origin _ hmem with
    | kept hd host discovery imports =>
        have hcurrent := ha.isCurrent_before hd
        exact ha.advance.trails_kept hc (hcurrent.contains hc) (htrails _ hcurrent) hagrees
    | successor hd hsucceeds gone =>
        exact ha.advance.trails_next hc (List.mem_map_of_mem hd) hsucceeds
          (htrails _ (ha.isCurrent_before hd)) hagrees
    | first hmade baseline fresh =>
        exact ha.advance.trails_first hc hmem hmade baseline fresh hdelivered hagrees
  · exact ha.advance.trails_kept hc (hd.contains hc) (htrails _ hd) hagrees

/-- What covered a document that was kept still does. -/
theorem covers_kept (ha : h.Announced h' pub pub' p p' isTouched isGone)
    (hp : h.Prompt pub pub.queue.waiting) (hd : h.IsCurrent project path d)
    (hd' : h'.IsCurrent project path d) (hopened : h'.workspace.isOpen path = true)
    (hcovers : h.Covers pub pub.queue.waiting project path d) :
    h'.Covers pub' pub'.queue.waiting project path d := by
  have hc := hp.coherent
  have hc' := ha.advance.coherent hc
  have hlt := (hc.truthful.sound d (hd.contains hc)).serial_lt
  rcases hcovers with ⟨x, hx, rfl⟩ | ⟨hsome, hout⟩ | hfails
  · obtain ⟨documents, hnew, -, -, hmem⟩ := ha.exists_scheduled hp
    have hdue := hp.due x hx
    obtain ⟨rfl, rfl⟩ := hdue.path_eq hc hd
    -- Work that replaces it has its key, so it is for the same document in its state now.
    by_cases hreplaced : ∃ s ∈ documents, s.workKey = x.1
    · obtain ⟨s, hs, hkey⟩ := hreplaced
      obtain ⟨hnewdue, hcurrent⟩ := hnew s hs
      obtain ⟨hproject, hpath⟩ :=
        (DocumentSnapshot.workKey_inj hnewdue.separated hdue.separated).mp (hkey.trans hdue.key_eq)
      have hwaits : (s.workKey, s) ∈ pub'.queue.waiting := (hmem _).mpr (Or.inl ⟨s, hs, rfl⟩)
      rw [hproject, hpath] at hcurrent
      exact Or.inl ⟨_, hwaits, hcurrent.state_eq hc' hd'⟩
    · exact Or.inl ⟨x, (hmem x).mpr (Or.inr ⟨hx, fun s hs hs' => hreplaced ⟨s, hs, hs'⟩⟩), rfl⟩
  · refine Or.inr (Or.inl ⟨?_, ?_⟩)
    · rcases ha.notes.published (project, path) with hsame | ⟨-, hproject, hclosed | hgone⟩
      · rw [hsame]
        exact hsome
      · rw [hclosed] at hopened
        exact absurd hopened Bool.false_ne_true
      · obtain rfl : project = p'.host.path := hproject
        rcases (ha.advance.isCurrent hc).mp hd' with ⟨-, hmem⟩ | ⟨-, hne⟩
        · exact absurd hgone (ha.affects.gone _ hmem)
        · exact absurd rfl hne
    · rw [ha.advance.follows.memory.findings_eq _ hlt]
      exact hout
  · refine Or.inr (Or.inr ?_)
    intro s hs hstate
    cases ha.advance.arrives hc hs with
    | kept hu agrees step findings =>
        rw [agrees.compiled_eq]
        exact hfails _ hu (agrees.state_eq.symm.trans hstate)
    | made project isMade baseline =>
        exact absurd (hstate ▸ hlt) (Nat.not_lt_of_le isMade.serial_ge)

/-- Open documents that are touched are scheduled, and the others are covered as before. -/
theorem covers (ha : h.Announced h' pub pub' p p' isTouched isGone)
    (hp : h.Prompt pub pub.queue.waiting) (hd : h'.IsCurrent project path d)
    (hopened : h'.workspace.isOpen path = true) :
    h'.Covers pub' pub'.queue.waiting project path d := by
  have hc := hp.coherent
  by_cases htouched : project = p'.host.path ∧ isTouched path
  · obtain ⟨rfl, htouched⟩ := htouched
    obtain ⟨documents, -, hscheduled, -, hmem⟩ := ha.exists_scheduled hp
    rcases (ha.advance.isCurrent hc).mp hd with ⟨-, hmem'⟩ | ⟨-, hne⟩
    · obtain ⟨s, hs, -, rfl⟩ := hscheduled path d hmem' htouched hopened
      exact Or.inl ⟨_, (hmem _).mpr (Or.inl ⟨s, hs, rfl⟩), rfl⟩
    · exact absurd rfl hne
  · have hold : h.IsCurrent project path d := by
      refine (ha.isCurrent_or_isTouched hc hd).resolve_right ?_
      rintro ⟨hproject, -, hpath⟩
      exact htouched ⟨hproject, hpath⟩
    refine ha.covers_kept hp hold hd hopened (hp.covered project path d hold ?_)
    -- It was open before: what is opened is touched, and is in no other project.
    refine (ha.opened path hopened).resolve_right ?_
    rintro ⟨hpath, hsole⟩
    obtain ⟨q, hq, hmem⟩ := hold
    refine htouched ⟨hsole _ hq ?_, hpath⟩
    exact Option.isSome_iff_ne_none.mpr (PathMap.get?_ne_none hmem)

end Announced

theorem Prompt.advance (hp : h.Prompt pub pub.queue.waiting)
    (hexact : ∀ p ∈ h'.states, p.ImportsExactly) (hclosing : h'.workspace.isClosing = false)
    (ha : h.Announced h' pub pub' p p' isTouched isGone) : h'.Prompt pub' pub'.queue.waiting where
  coherent := ha.advance.coherent hp.coherent
  importsExactly := hexact
  isClosing := hclosing
  separated := ha.separated hp
  keys := by
    obtain ⟨-, -, -, hkeys, -⟩ := ha.exists_scheduled hp
    exact hkeys
  due _ hx := ha.isDue hp hx
  published _ _ hsome := ha.copied hp hsome
  covered _ _ _ hd hopened := ha.covers hp hd hopened

end History

end RazorLang
