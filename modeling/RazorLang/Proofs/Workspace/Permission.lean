import RazorLang.Proofs.Workspace.Promptness

/-!
# Changes that a publisher keeps up with

`Change.Permitted` says what is asked of a change, and every permitted change keeps the invariant of a
workspace with a publisher (`History.Prompt.apply`): a change of a project lets it advance, with what the
publisher is told of it (`History.Prompt.updated`), or does nothing to documents.
-/

namespace RazorLang

open ProjectState (Affects)

/-- What is asked of a change so that the publisher keeps up with it. The solution stays open, and the bar, which
    separates the parts of keys, does not stand in paths of projects. What is opened belongs to one project, since
    the publisher is not told of the others. What is closed or removed does not wait any more, since its old
    state would still be published. And no open document takes imports from the place of a document that is
    removed, since the publisher does not schedule those. -/
def Change.Permitted (w : Workspace) (work : List (Text × DocumentSnapshot)) : Change → Prop
  | .closeSolution => False
  | .addProject host => '|' ∉ host.path
  | .openDocument project path _ =>
    ∀ e ∈ w.projects, (e.2.document? path).isSome = true → e.1 = project
  | .closeDocument _ path _ => ∀ x ∈ work, x.2.state.host.path ≠ path
  | .removeDocument project path => (∀ x ∈ work, x.2.state.host.path ≠ path) ∧
    ∀ s ∈ w.document? project path, ∀ t ∈ s.importers, w.isOpen t.state.host.path = false
  | _ => True

instance Change.decidablePermitted (w : Workspace) (work : List (Text × DocumentSnapshot)) :
    (c : Change) → Decidable (c.Permitted w work)
  | .closeSolution => inferInstanceAs (Decidable False)
  | .addProject host => inferInstanceAs (Decidable ('|' ∉ host.path))
  | .openDocument project path _ => inferInstanceAs
      (Decidable (∀ e ∈ w.projects, (e.2.document? path).isSome = true → e.1 = project))
  | .closeDocument _ path _ => inferInstanceAs (Decidable (∀ x ∈ work, x.2.state.host.path ≠ path))
  | .removeDocument project path => inferInstanceAs
      (Decidable ((∀ x ∈ work, x.2.state.host.path ≠ path) ∧
        ∀ s ∈ w.document? project path, ∀ t ∈ s.importers, w.isOpen t.state.host.path = false))
  | .openSolution | .removeProject _ | .configureProject _ | .discover _ _ | .addDocument _ _ _
  | .changeText _ _ _ | .changeLoader _ _ _ => inferInstanceAs (Decidable True)

namespace Change

variable {c : Change} {e : Effect} {w w' : Workspace} {work : List (Text × DocumentSnapshot)}
  {p : ProjectState} {path : Text}

/-- Only documents of one project are opened. -/
theorem Permitted.of_mem_settle (h : c.Permitted w work) (he : c.effect? = some e) {s : PathSet}
    (hpath : path ∈ e.settling.settle p s) : path ∈ s ∨
      (p.document? path).isSome = true ∧ e.scope = .document path false ∧
        ∀ f ∈ w.projects, (f.2.document? path).isSome = true → f.1 = e.project := by
  cases c with
  | openSolution | closeSolution | addProject host | removeProject project => exact nomatch he
  | configureProject host | discover project discovery | addDocument project document loader
  | changeText project path text | changeLoader project path loader =>
      obtain rfl := Option.some.inj he
      exact Or.inl hpath
  | removeDocument project path | closeDocument project path loader =>
      obtain rfl := Option.some.inj he
      exact Or.inl (Settling.mem_settle_closes.mp hpath).1
  | openDocument project opened text =>
      obtain rfl := Option.some.inj he
      rcases Settling.mem_settle_opens.mp hpath with hpath | ⟨rfl, hthere⟩
      · exact Or.inl hpath
      · exact Or.inr ⟨hthere, rfl, h⟩

/-- What waits stays open, and is not removed. -/
theorem Permitted.mem_settle (h : c.Permitted w work) (he : c.effect? = some e) {s : PathSet}
    {x : Text × DocumentSnapshot} (hx : x ∈ work) (hpath : x.2.state.host.path ∈ s) :
    x.2.state.host.path ∈ e.settling.settle p s ∧ e.scope ≠ .removal x.2.state.host.path := by
  cases c with
  | openSolution | closeSolution | addProject host | removeProject project => exact nomatch he
  | configureProject host | discover project discovery | addDocument project document loader
  | changeText project path text | changeLoader project path loader =>
      obtain rfl := Option.some.inj he
      exact ⟨hpath, fun h => nomatch h⟩
  | closeDocument project path loader =>
      obtain rfl := Option.some.inj he
      exact ⟨Settling.mem_settle_closes.mpr ⟨hpath, h x hx⟩, fun h => nomatch h⟩
  | removeDocument project path =>
      obtain rfl := Option.some.inj he
      refine ⟨Settling.mem_settle_closes.mpr ⟨hpath, h.1 x hx⟩, ?_⟩
      intro heq
      exact h.1 x hx (Scope.removal.inj heq).symm
  | openDocument project opened text =>
      obtain rfl := Option.some.inj he
      exact ⟨Settling.mem_settle_opens.mpr (Or.inl hpath), fun h => nomatch h⟩

/-- No open document takes imports from the place of a document that is removed. -/
theorem Permitted.of_removal (h : c.Permitted w work) (he : c.effect? = some e) {path : Text}
    (hscope : e.scope = .removal path) {bound : Nat} (hp : w.project? e.project = some p)
    (hv : p.Valid bound) {x : DocumentState} (hx : (path, x) ∈ p.documents) :
    ∀ q ∈ p.importersOf x.host.target, w.isOpen q = false := by
  cases c with
  | openSolution | closeSolution | addProject host | removeProject project => exact nomatch he
  | configureProject host | discover project discovery | addDocument project document loader
  | openDocument project path text | closeDocument project path loader
  | changeText project path text | changeLoader project path loader =>
      obtain rfl := Option.some.inj he
      exact nomatch hscope
  | removeDocument project path =>
      obtain rfl := Option.some.inj he
      obtain rfl := Scope.removal.inj hscope
      intro q hq
      obtain ⟨d, hd, -⟩ := (hv.indexed x.host.target q).mp hq
      have hsnapshot : w.document? project path = some ⟨p, x⟩ := by
        rw [Workspace.document?, hp, Option.bind_some]
        exact hv.snapshot?_eq_some.mpr ⟨rfl, hx⟩
      have hpath : d.host.path = q := hv.path_eq _ hd
      rw [← hpath]
      refine h.2 _ hsnapshot ⟨p, d⟩ ((DocumentSnapshot.mem_importers hv).mpr ⟨rfl, ?_, ?_⟩)
      · rw [hpath]
        exact hd
      · rw [hpath]
        exact hq

end Change

namespace History

variable {h : History} {pub : Publisher} {work : List (Text × DocumentSnapshot)} {w : Workspace}
  {m : Memory}

/-- No snapshots are added where no documents are. -/
theorem Coherent.has_note (hc : h.Coherent)
    (hprojects : ∀ e ∈ w.projects, e ∈ h.workspace.projects ∨ e.2.documents = [])
    (s : DocumentSnapshot) : (h.note w).Has s ↔ h.Has s := by
  constructor
  · rintro ⟨hp, hd⟩
    rcases List.mem_append.mp hp with hp | hp
    · obtain ⟨e, he, heq⟩ := List.mem_map.mp hp
      rcases hprojects e he with he | hnone
      · exact ⟨heq ▸ (hc.current e he).1, hd⟩
      · rw [← heq, hnone] at hd
        exact absurd hd List.not_mem_nil
    · exact ⟨hp, hd⟩
  · rintro ⟨hp, hd⟩
    exact ⟨List.mem_append_right _ hp, hd⟩

namespace Prompt

/-- The projects are the same; documents may be closed. -/
theorem extend_same (hp : h.Prompt pub work) (hmemory : h.memory.Extends w.memory)
    (hprojects : w.projects = h.workspace.projects) (hclosing : w.isClosing = false)
    (hexact : ∀ p ∈ (h.note w).states, p.ImportsExactly)
    (hopen : ∀ path, w.isOpen path = true → h.workspace.isOpen path = true)
    (hwork : ∀ x ∈ work, w.isOpen x.2.state.host.path = true) : (h.note w).Prompt pub work := by
  have hbefore : ∀ e ∈ w.projects, e ∈ h.workspace.projects := fun e he => hprojects ▸ he
  have ht : h.Turnover (h.note w) pub pub fun _ => True :=
    { coherent := hp.coherent.extend_same hmemory hprojects
      has := hp.coherent.has_note fun e he => Or.inl (hbefore e he)
      projects := fun e he => Or.inl (hbefore e he)
      memory := hmemory
      kept := by
        intro e he _
        rw [← hprojects] at he
        exact he
      inhabited := fun _ _ _ => trivial
      opened := hopen
      agrees := fun _ _ _ => ⟨rfl, fun _ => rfl⟩
      forgotten := fun _ _ h => absurd trivial h }
  exact hp.extend ht hexact hclosing (fun e he => hp.separated e (hbefore e he)) hwork

theorem addProject (hp : h.Prompt pub pub.queue.waiting) (hmemory : h.memory.Extends m)
    {host : HostProject} (hbar : '|' ∉ host.path)
    (hexact : ∀ p ∈ (h.note ((h.withMemory m).workspace.addProject host).2).states,
      p.ImportsExactly) :
    let r := (h.withMemory m).workspace.addProject host
    let pub' := r.1.elim pub (pub.note r.2)
    (h.note r.2).Prompt pub' pub'.queue.waiting := by
  have hopen : ∀ x ∈ pub.queue.waiting, h.workspace.isOpen x.2.state.host.path = true := fun x hx =>
    (hp.due x hx).isOpen
  have hc := hp.coherent.addProject (w := (h.withMemory m).workspace) hmemory rfl host
  rw [Workspace.addProject] at hexact hc ⊢
  by_cases hthere : h.workspace.projects.contains host.path = true
  · rw [if_pos hthere] at hexact ⊢
    exact hp.extend_same hmemory rfl hp.isClosing hexact (fun _ h => h) hopen
  · rw [if_neg hthere] at hexact hc ⊢
    have hcreated := m.extends_next_twice
    have hnone : h.workspace.projects.get? host.path = none := by
      rw [← Option.not_isSome_iff_eq_none]
      exact hthere
    have hprojects : ∀ e ∈ h.workspace.projects.set host.path ((ProjectState.create host).run m).1,
        e ∈ h.workspace.projects ∨ e.2.documents = [] := by
      intro e he
      rcases PathMap.mem_set he with rfl | he
      · exact Or.inr rfl
      · exact Or.inl he
    -- The new project has no documents, so the publisher has nothing to do.
    have hnote (w : Workspace) : pub.note w
        { kind := .projectAdded, project := host.path, document := none, older := none
          newer := some ((ProjectState.create host).run m).1, isClosing := h.workspace.isClosing } =
        pub := by
      rw [Publisher.note, hp.isClosing]
      rfl
    intro r pub'
    rw [show pub' = pub from hnote r.2]
    have ht : h.Turnover (h.note r.2) pub pub fun _ => True :=
      { coherent := hc
        has := hp.coherent.has_note hprojects
        projects := hprojects
        memory := hmemory.trans hcreated
        kept := fun e he _ => (PathMap.mem_set_of_get?_eq_none hnone).mpr (Or.inr he)
        inhabited := fun _ _ _ => trivial
        opened := fun _ h => h
        agrees := fun _ _ _ => ⟨rfl, fun _ => rfl⟩
        forgotten := fun _ _ h => absurd trivial h }
    refine hp.extend ht hexact hp.isClosing (fun e he => ?_) hopen
    rcases PathMap.mem_set he with rfl | he
    · exact hbar
    · exact hp.separated e he

theorem removeProject (hp : h.Prompt pub pub.queue.waiting) (hmemory : h.memory.Extends m)
    {project : Text}
    (hexact : ∀ p ∈ (h.note ((h.withMemory m).workspace.removeProject project).2).states,
      p.ImportsExactly) :
    let r := (h.withMemory m).workspace.removeProject project
    let pub' := r.1.elim pub (pub.note r.2)
    (h.note r.2).Prompt pub' pub'.queue.waiting := by
  have hopen : ∀ x ∈ pub.queue.waiting, h.workspace.isOpen x.2.state.host.path = true := fun x hx =>
    (hp.due x hx).isOpen
  have hc := hp.coherent.removeProject (w := (h.withMemory m).workspace) hmemory rfl project
  rw [Workspace.removeProject] at hexact hc ⊢
  cases hproject : (h.withMemory m).workspace.project? project with
  | none =>
      rw [hproject] at hexact
      exact hp.extend_same hmemory rfl hp.isClosing hexact (fun _ h => h) hopen
  | some p =>
      rw [hproject] at hexact hc
      have hprojects : ∀ e ∈ h.workspace.projects.erase project,
          e ∈ h.workspace.projects ∨ e.2.documents = [] :=
        fun e he => Or.inl (PathMap.mem_erase.mp he).1
      have hnote (w : Workspace) : pub.note w
          { kind := .projectRemoved, project, document := none, older := some p, newer := none
            isClosing := h.workspace.isClosing } = pub.forgetProject project := by
        rw [Publisher.note, hp.isClosing]
        rfl
      intro r pub'
      rw [show pub' = pub.forgetProject project from hnote r.2]
      -- the other projects are as they were, and the copies of this one are forgotten
      have ht : h.Turnover (h.note r.2) pub (pub.forgetProject project) (· ≠ project) :=
        { coherent := hc
          has := hp.coherent.has_note hprojects
          projects := hprojects
          memory := hmemory
          kept := fun e he hne => PathMap.mem_erase.mpr ⟨he, hne⟩
          inhabited := fun e he _ => (PathMap.mem_erase.mp he).2
          opened := fun _ h => h
          agrees := fun other path hne =>
            ⟨(pub.lookup_forgetProject project _).trans (if_neg hne), fun _ => rfl⟩
          forgotten := by
            intro other path hnot
            rw [Publisher.lookup_forgetProject, if_pos (not_not.mp hnot)] }
      exact hp.extend ht hexact hp.isClosing (fun e he => hp.separated e (PathMap.mem_erase.mp he).1) hopen

/-- What the publisher is told of a permitted change of a project. -/
theorem announced (hp : h.Prompt pub pub.queue.waiting) {c : Change} {e : Effect}
    (he : c.effect? = some e) (hpermitted : c.Permitted h.workspace pub.queue.waiting)
    {w' : Workspace} {p p' : ProjectState} (advance : Advance h (h.note w') e.project p p')
    (affects : e.scope.Affects p p')
    (hsettled : w'.openDocuments = e.settling.settle p h.workspace.openDocuments)
    (hclosing : w.isClosing = false) : ∃ isTouched isGone,
      h.Announced (h.note w') pub (pub.note w' (eventOf w e p p')) p p' isTouched isGone := by
  have hc := hp.coherent
  have hcurrent := (advance.coherent hc).current _ ((advance.projects hc).mpr (Or.inl rfl))
  have hproject : h.workspace.project? e.project = some p := hc.sorted.get?_eq_some advance.before
  -- a document that is open behind the change was open before, or is the one that the change opens
  have hopened {path : Text} (hpath : w'.isOpen path = true) :
      h.workspace.isOpen path = true ∨ e.scope = .document path false ∧
        ∀ f ∈ h.workspace.projects, (f.2.document? path).isSome = true → f.1 = e.project := by
    rw [Workspace.isOpen_iff, hsettled] at hpath
    exact (hpermitted.of_mem_settle he hpath).imp Workspace.isOpen_iff.mpr And.right
  have hclosed (path : Text) (x : DocumentState) (hscope : e.scope = .removal path)
      (hx : (path, x) ∈ p.documents) : ∀ q ∈ p.importersOf x.host.target, w'.isOpen q = false := by
    intro q hq
    have hbefore := hpermitted.of_removal he hscope hproject
      (hc.valid p (hc.current _ advance.before).1) hx q hq
    by_contra hne
    rcases hopened (Bool.not_eq_false _ ▸ hne) with hopen | ⟨hscope', -⟩
    · rw [hopen] at hbefore
      exact absurd hbefore.symm Bool.false_ne_true
    · rw [hscope] at hscope'
      exact nomatch hscope'
  obtain ⟨isTouched, isGone, haffects, hnotes, htouched, hgone⟩ := Publisher.notes pub w w'
    advance.follows.valid hcurrent.2.symm hclosing affects hclosed
  refine ⟨isTouched, isGone,
    { advance := ?_, affects := haffects, notes := hnotes, opened := ?_, waits := ?_ }⟩
  · rw [hcurrent.2]
    exact advance
  · intro path hpath
    refine (hopened hpath).imp_right ?_
    rintro ⟨hscope, hsole⟩
    exact ⟨htouched path false hscope, hcurrent.2.symm ▸ hsole⟩
  · intro x hx
    obtain ⟨hstill, hscope⟩ :=
      hpermitted.mem_settle (p := p) he hx (Workspace.isOpen_iff.mp (hp.due x hx).isOpen)
    refine ⟨fun hx => hscope (hgone _ hx), Workspace.isOpen_iff.mpr ?_⟩
    exact hsettled ▸ hstill

/-- A change of a project. -/
theorem updated (hp : h.Prompt pub pub.queue.waiting) (hmemory : h.memory.Extends m) {c : Change}
    {e : Effect} (he : c.effect? = some e) (hpermitted : c.Permitted h.workspace pub.queue.waiting)
    {r : Option Event × Workspace} (hupdated : Updated h (h.withMemory m).workspace e r)
    (hexact : ∀ p ∈ (h.note r.2).states, p.ImportsExactly) :
    let pub' := r.1.elim pub (pub.note r.2)
    (h.note r.2).Prompt pub' pub'.queue.waiting := by
  have hopen : ∀ x ∈ pub.queue.waiting, h.workspace.isOpen x.2.state.host.path = true := fun x hx =>
    (hp.due x hx).isOpen
  cases hupdated with
  | absent absent => exact hp.extend_same hmemory rfl hp.isClosing hexact (fun _ h => h) hopen
  | closing isClosing => exact absurd (hp.isClosing.symm.trans isClosing) Bool.false_ne_true
  | idle before isIdle =>
      -- The project stays as it is, but the set of open documents is settled all the same.
      refine hp.extend_same hmemory rfl hp.isClosing hexact ?_ ?_
      · intro path hpath
        rw [Workspace.isOpen_iff] at hpath ⊢
        refine (hpermitted.of_mem_settle he hpath).resolve_right ?_
        rintro ⟨hsome, hscope, -⟩
        rw [hscope] at isIdle
        rw [show _ = none from isIdle] at hsome
        exact absurd hsome Bool.false_ne_true
      · intro x hx
        exact Workspace.isOpen_iff.mpr
          (hpermitted.mem_settle he hx (Workspace.isOpen_iff.mp (hopen x hx))).1
  | advances advance affects openDocuments isClosing =>
      obtain ⟨isTouched, isGone, hannounced⟩ := hp.announced (w := (h.withMemory m).workspace) he
        hpermitted advance affects openDocuments hp.isClosing
      exact hp.advance hexact (isClosing.trans hp.isClosing) hannounced

/-- Every permitted change keeps the invariant, once the publisher has heard of it. -/
theorem apply (hp : h.Prompt pub pub.queue.waiting) (hmemory : h.memory.Extends m)
    (hlt : h.memory.next < m.next) {c : Change} (hbrings : c.BringsAt ⟨h.memory.next⟩)
    (hpermitted : c.Permitted h.workspace pub.queue.waiting)
    (hexact : ∀ p ∈ (h.note ((h.withMemory m).workspace.apply c).2).states, p.ImportsExactly) :
    let r := (h.withMemory m).workspace.apply c
    let pub' := r.1.elim pub (pub.note r.2)
    (h.note r.2).Prompt pub' pub'.queue.waiting := by
  cases heffect : c.effect? with
  | some e =>
      have hupdated := hp.coherent.updated (w := (h.withMemory m).workspace) hmemory rfl hlt hbrings
        heffect hexact
      exact hp.updated hmemory heffect hpermitted hupdated hexact
  | none =>
      cases c with
      | openSolution =>
          exact hp.extend_same hmemory rfl rfl hexact (fun _ h => h) fun x hx => (hp.due x hx).isOpen
      | closeSolution => exact hpermitted.elim
      | addProject host => exact hp.addProject hmemory hpermitted hexact
      | removeProject project => exact hp.removeProject hmemory hexact
      | configureProject _ | discover _ _ | addDocument _ _ _ | removeDocument _ _
      | openDocument _ _ _ | closeDocument _ _ _ | changeText _ _ _ | changeLoader _ _ _ =>
          exact nomatch heffect

end Prompt

end History

end RazorLang
