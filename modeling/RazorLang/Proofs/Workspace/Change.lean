import RazorLang.Proofs.Workspace.Coherence
import RazorLang.Proofs.Workspace.Membership

/-!
# What a change does to a history

Most changes are changes of one project, and differ in which of its documents they are about and in what they
do to the set of open documents: that is their `Effect`.
A change of a project leaves the workspace as it is or lets the project advance (`History.Updated`), and there
is one lemma for all of them (`History.Coherent.updated`). Every change keeps the invariant of histories if
projects find their imports exactly and a loader comes with the version that is handed out for the change
(`History.Coherent.apply`).
-/

namespace RazorLang

open ProjectState (AffectsAll AffectsAt AffectsGone)

/-- The loader that a change brings, if it brings one, always gives a text with the given version. -/
def Change.BringsAt (v : Version) : Change → Prop
  | .addDocument _ _ loader | .closeDocument _ _ loader | .changeLoader _ _ loader =>
    ∃ text, loader.Gives ⟨text, v⟩
  | _ => True

/-- The documents that a change of a project is about. -/
inductive Scope where
  | all
  | document (path : Text) (isNew : Bool)
  | removal (path : Text)

namespace Scope

/-- The kind of change that listeners are told of. -/
def kind : Scope → EventKind
  | all => .projectChanged
  | document _ true => .documentAdded
  | document _ false => .documentChanged
  | removal _ => .documentRemoved

/-- The document that listeners are told of. -/
def document? : Scope → Option Text
  | all => none
  | document path _ | removal path => some path

/-- What is known where the change leaves the project as it is. -/
def IsIdle (p : ProjectState) : Scope → Prop
  | all | document _ true => True
  | document path false | removal path => p.document? path = none

/-- What the change does to the documents. -/
def Affects (p p' : ProjectState) : Scope → Prop
  | all => AffectsAll p p'
  | document path _ => AffectsAt path p p'
  | removal path => AffectsGone path p p'

end Scope

/-- What a change does to the set of open documents. -/
inductive Settling where
  | keeps
  | opens (path : Text)
  | closes (path : Text)

/-- The open documents once they are settled. -/
def Settling.settle : Settling → ProjectState → PathSet → PathSet
  | keeps => Workspace.keepOpen
  | opens path => fun p s => if (p.document? path).isSome then PathSet.add path s else s
  | closes path => fun _ s => PathSet.remove s path

theorem Settling.mem_settle_opens {p : ProjectState} {s : PathSet} {path q : Text} :
    q ∈ settle (.opens path) p s ↔ q ∈ s ∨ q = path ∧ (p.document? path).isSome = true := by
  rw [settle]
  dsimp only
  by_cases hthere : (p.document? path).isSome = true
  · rw [if_pos hthere, PathSet.mem_add, or_comm, and_iff_left hthere]
  · rw [if_neg hthere]
    exact (or_iff_left fun h => hthere h.2).symm

theorem Settling.mem_settle_closes {p : ProjectState} {s : PathSet} {path q : Text} :
    q ∈ settle (.closes path) p s ↔ q ∈ s ∧ q ≠ path :=
  PathSet.mem_remove

theorem Workspace.isOpen_iff {w : Workspace} {path : Text} :
    w.isOpen path = true ↔ path ∈ w.openDocuments :=
  List.contains_iff_mem

/-- What a change does to a project. -/
structure Effect where
  project : Text
  scope : Scope
  settling : Settling

/-- What a change does to a project, if it is one of a project that is there. -/
def Change.effect? : Change → Option Effect
  | .openSolution | .closeSolution | .addProject _ | .removeProject _ => none
  | .configureProject host => some ⟨host.path, .all, .keeps⟩
  | .discover project _ => some ⟨project, .all, .keeps⟩
  | .addDocument project document _ => some ⟨project, .document document.path true, .keeps⟩
  | .removeDocument project path => some ⟨project, .removal path, .closes path⟩
  | .openDocument project path _ => some ⟨project, .document path false, .opens path⟩
  | .closeDocument project path _ => some ⟨project, .document path false, .closes path⟩
  | .changeText project path _ | .changeLoader project path _ =>
    some ⟨project, .document path false, .keeps⟩

open DocumentState ProjectState

namespace History

/-- The history in which the workspace has become another one. -/
def note (h : History) (w : Workspace) : History := ⟨w, w.projects.values ++ h.states⟩

/-- What listeners are told of an effect. -/
def eventOf (w : Workspace) (e : Effect) (p p' : ProjectState) : Event :=
  { kind := e.scope.kind, project := e.project, document := e.scope.document?, older := some p
    newer := some p', isClosing := w.isClosing }

/-- What becomes of a workspace by a change with an effect. -/
inductive Updated (h : History) (w : Workspace) (e : Effect) : Option Event × Workspace → Prop where
  | absent (absent : w.project? e.project = none) : Updated h w e (none, w)
  | closing {p : ProjectState} (isClosing : w.isClosing = true) :
      Updated h w e (some (eventOf w e p p), w)
  | idle {p : ProjectState} (before : (e.project, p) ∈ w.projects) (isIdle : e.scope.IsIdle p) :
      Updated h w e (none, { w with openDocuments := e.settling.settle p w.openDocuments })
  | advances {p p' : ProjectState} {w' : Workspace} (advance : Advance h (h.note w') e.project p p')
      (affects : e.scope.Affects p p')
      (openDocuments : w'.openDocuments = e.settling.settle p w.openDocuments)
      (isClosing : w'.isClosing = w.isClosing) : Updated h w e (some (eventOf w e p p'), w')

variable {h : History} {w : Workspace} {p : ProjectState}

namespace Coherent

/-- A project without documents may come, and projects may go. -/
theorem extend (hc : h.Coherent) (hmemory : h.memory.Extends w.memory) (hsorted : w.projects.Sorted)
    (hprojects : ∀ e ∈ w.projects, e ∈ h.workspace.projects ∨
      e.2.documents = [] ∧ e.2.Valid w.memory.next ∧ e.2.host.path = e.1) :
    (h.note w).Coherent := by
  have hm := hmemory.refines hc.truthful
  have hserial {s : DocumentSnapshot} (hs : h.Has s) :
      (h.note w).memory.findings s.state.serial = h.memory.findings s.state.serial :=
    hmemory.findings_eq _ (hc.truthful.sound _ ⟨_, hs⟩).serial_lt
  have hmem {e : Text × ProjectState} (he : e ∈ w.projects) : e.2 ∈ (h.note w).states :=
    List.mem_append_left _ (List.mem_map_of_mem he)
  refine hc.carry (fun p hp => List.mem_append_right _ hp) ?_ hsorted
    (fun e he => (hprojects e he).imp_right And.left) ?_ hm ?_ ?_ ?_ ?_ ?_
  · intro p hp
    rcases List.mem_append.mp hp with hp | hp
    · obtain ⟨e, he, rfl⟩ := List.mem_map.mp hp
      rcases hprojects e he with he | ⟨hnone, hvalid, -⟩
      · exact ⟨Or.inl (hc.current e he).1, (hc.valid _ (hc.current e he).1).mono hmemory.next_le⟩
      · exact ⟨Or.inr hnone, hvalid⟩
    · exact ⟨Or.inl hp, (hc.valid p hp).mono hmemory.next_le⟩
  · intro e he
    rcases hprojects e he with he' | ⟨-, -, hpath⟩
    · exact ⟨hmem he, (hc.current e he').2⟩
    · exact ⟨hmem he, hpath⟩
  · exact ⟨hc.truthful.unique, fun d hd => (hc.truthful.sound d hd).extend hmemory⟩
  · intro s hs ho
    rw [hserial hs] at ho ⊢
    exact hc.asked s hs ho
  · intro s hs hrequested
    exact (hc.requested s hs (hserial hs ▸ hrequested)).refine hs.contains hm
  · intro s o hs ho
    obtain ⟨hcompiled, hdated, t, ht, hstate, hmade⟩ := hc.output s o hs (hserial hs ▸ ho)
    exact ⟨hcompiled, hdated, t, ht, hstate, fun bound hbelow =>
      hmade bound (hbelow.before_refine ht.contains hm)⟩
  · intro s n hs hn
    exact hserial hs ▸ hn

/-- The projects are the same, whatever else is. -/
theorem extend_same (hc : h.Coherent) (hmemory : h.memory.Extends w.memory)
    (hprojects : w.projects = h.workspace.projects) : (h.note w).Coherent :=
  hc.extend hmemory (hprojects ▸ hc.sorted) fun _ he => Or.inl (hprojects ▸ he)

/-- A change of one project. -/
theorem update (hc : h.Coherent) (hprojects : w.projects = h.workspace.projects) (e : Effect)
    {change : ProjectState → StateM Memory (Option ProjectState)}
    (hexact : ∀ p ∈ (h.note (w.update e.project e.scope.kind e.scope.document? e.settling.settle change).2).states,
      p.ImportsExactly)
    (hchange : ∀ p, p.host.path = e.project → p.Valid h.memory.next →
      (∀ e ∈ p.documents, e.2.Sound h.memory) → p.ImportsExactly →
      Advances h.memory w.memory p (change p) (e.scope.IsIdle p) (e.scope.Affects p)) :
    Updated h w e (w.update e.project e.scope.kind e.scope.document? e.settling.settle change) := by
  cases hproject : w.project? e.project with
  | none =>
      rw [Workspace.update, hproject]
      exact .absent hproject
  | some p =>
      have hbefore : (e.project, p) ∈ w.projects := PathMap.mem_of_get? hproject
      obtain ⟨hp, hpath⟩ := hc.current _ (hprojects ▸ hbefore)
      have hadvances := hchange p hpath (hc.valid p hp)
        (fun e he => hc.truthful.sound _ ⟨p, hp, List.mem_map_of_mem he⟩)
        (hexact p (List.mem_append_right _ hp))
      rw [Workspace.update, hproject] at hexact ⊢
      dsimp only at hexact ⊢
      -- a change of a project that is there has an effect unless the solution is being closed or the project says
      -- that nothing changes
      by_cases hclosing : w.isClosing = true
      · rw [if_pos hclosing]
        exact .closing hclosing
      · rw [if_neg hclosing] at hexact ⊢
        rcases hadvances with ⟨hrun, hidle⟩ | ⟨p', m', hrun, haffects, hfollows⟩
        · rw [Workspace.act, hrun]
          exact .idle hbefore hidle
        · rw [Workspace.act, hrun] at hexact ⊢
          dsimp only at hexact ⊢
          have hafter (q : ProjectState) (hq : q ∈ (w.projects.set e.project p').values) :
              q = p' ∨ q ∈ h.states := by
            obtain ⟨e, he, rfl⟩ := List.mem_map.mp hq
            rcases PathMap.mem_set he with rfl | he
            · exact Or.inl rfl
            · exact Or.inr (hc.current e (hprojects ▸ he)).1
          have hmem : p' ∈ (w.projects.set e.project p').values :=
            List.mem_map_of_mem (PathMap.mem_of_get?
              ((PathMap.get?_set e.project e.project p' w.projects).trans (if_pos rfl)))
          refine .advances ⟨hprojects ▸ hbefore, hfollows (hexact p' (List.mem_append_left _ hmem)),
            ?_, ?_⟩ haffects rfl rfl
          · rw [← hprojects]
            rfl
          · intro q
            constructor
            · intro hq
              exact (List.mem_append.mp hq).elim (hafter q) Or.inr
            · rintro (rfl | hq)
              · exact List.mem_append_left _ hmem
              · exact List.mem_append_right _ hq

/-- A change with an effect, with a loader that is new. -/
theorem updated (hc : h.Coherent) (hmemory : h.memory.Extends w.memory)
    (hprojects : w.projects = h.workspace.projects) (hlt : h.memory.next < w.memory.next) {c : Change}
    (hbrings : c.BringsAt ⟨h.memory.next⟩) {e : Effect} (he : c.effect? = some e)
    (hexact : ∀ p ∈ (h.note (w.apply c).2).states, p.ImportsExactly) : Updated h w e (w.apply c) := by
  cases c with
  | openSolution | closeSolution | addProject | removeProject => exact nomatch he
  | configureProject host =>
      obtain rfl := Option.some.inj he
      exact hc.update hprojects _ hexact fun p hpath hvalid hsound _ =>
        configure?_advances hmemory hvalid hsound hpath.symm
  | discover project discovery =>
      obtain rfl := Option.some.inj he
      exact hc.update hprojects _ hexact fun p _ hvalid hsound _ =>
        discover?_advances hmemory hvalid hsound discovery
  | addDocument project document loader =>
      obtain rfl := Option.some.inj he
      obtain ⟨text, hgives⟩ := hbrings
      exact hc.update hprojects _ hexact fun p _ hvalid hsound hexact =>
        addDocument?_advances hmemory hvalid hsound hexact document (hgives.constant hlt)
  | removeDocument project path =>
      obtain rfl := Option.some.inj he
      exact hc.update hprojects _ hexact fun p _ hvalid hsound hexact =>
        removeDocument?_advances hmemory hvalid hsound hexact path
  | openDocument project path text | changeText project path text =>
      obtain rfl := Option.some.inj he
      exact hc.update hprojects _ hexact fun p _ hvalid hsound hexact =>
        changeText?_advances hmemory hvalid hsound hexact path text
  | closeDocument project path loader | changeLoader project path loader =>
      obtain rfl := Option.some.inj he
      obtain ⟨text, hgives⟩ := hbrings
      exact hc.update hprojects _ hexact fun p _ hvalid hsound hexact =>
        changeLoader?_advances hmemory hvalid hsound hexact path hgives (Nat.le_refl _) hlt

theorem addProject (hc : h.Coherent) (hmemory : h.memory.Extends w.memory)
    (hprojects : w.projects = h.workspace.projects) (host : HostProject) :
    (h.note (w.addProject host).2).Coherent := by
  rw [Workspace.addProject]
  by_cases hthere : w.projects.contains host.path = true
  · rw [if_pos hthere]
    exact hc.extend_same hmemory hprojects
  · rw [if_neg hthere]
    have hcreated := w.memory.extends_next_twice
    refine hc.extend (hmemory.trans hcreated) ?_ ?_
    · exact (hprojects ▸ hc.sorted).set _ _
    · intro e he
      rcases PathMap.mem_set he with rfl | he
      · refine Or.inr ⟨rfl, ?_, rfl⟩
        exact
          { sorted := List.Pairwise.nil
            path_eq := fun e he => absurd he List.not_mem_nil
            distinct := List.Pairwise.nil
            indexed := .nil
            configuration := Nat.lt_succ_self _
            discovery := Nat.lt_succ_self _
            documentsVersion := Nat.lt_succ_self _ }
      · exact Or.inl (hprojects ▸ he)

theorem removeProject (hc : h.Coherent) (hmemory : h.memory.Extends w.memory)
    (hprojects : w.projects = h.workspace.projects) (project : Text) :
    (h.note (w.removeProject project).2).Coherent := by
  rw [Workspace.removeProject]
  cases w.project? project with
  | none => exact hc.extend_same hmemory hprojects
  | some p =>
      refine hc.extend hmemory ((hprojects ▸ hc.sorted).erase project) ?_
      intro e he
      exact Or.inl (hprojects ▸ List.mem_of_mem_filter he)

/-- Every change keeps the invariant. -/
theorem apply (hc : h.Coherent) (hmemory : h.memory.Extends w.memory)
    (hprojects : w.projects = h.workspace.projects) (hlt : h.memory.next < w.memory.next) {c : Change}
    (hbrings : c.BringsAt ⟨h.memory.next⟩)
    (hexact : ∀ p ∈ (h.note (w.apply c).2).states, p.ImportsExactly) :
    (h.note (w.apply c).2).Coherent := by
  cases heffect : c.effect? with
  | some e =>
      have hupdated := hc.updated hmemory hprojects hlt hbrings heffect hexact
      generalize w.apply c = r at hupdated ⊢
      cases hupdated with
      | absent absent => exact hc.extend_same hmemory hprojects
      | closing isClosing => exact hc.extend_same hmemory hprojects
      | idle before isIdle => exact hc.extend_same hmemory hprojects
      | advances advance affects openDocuments isClosing => exact advance.coherent hc
  | none =>
      cases c with
      | openSolution => exact hc.extend_same hmemory hprojects
      | closeSolution => exact hc.extend_same hmemory hprojects
      | addProject host => exact hc.addProject hmemory hprojects host
      | removeProject project => exact hc.removeProject hmemory hprojects project
      | configureProject _ | discover _ _ | addDocument _ _ _ | removeDocument _ _
      | openDocument _ _ _ | closeDocument _ _ _ | changeText _ _ _ | changeLoader _ _ _ =>
          exact nomatch heffect

end Coherent

end History

end RazorLang
