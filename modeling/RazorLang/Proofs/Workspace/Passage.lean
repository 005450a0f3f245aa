import RazorLang.Proofs.Workspace.Reachability
import RazorLang.Workspace.Notification

/-!
# What a change makes of a document

A change of a workspace is a transition of one of its projects, or it concerns none of them, or a project
comes or goes. In every case each document is kept, gets another state, or comes or goes
(`Workspace.Passes`), and the projects stay tidy (`Workspace.Tidy.apply`). Nothing is asked of the loaders
that changes bring.
-/

namespace RazorLang

open DocumentState ProjectState

namespace Workspace

variable {w w' w₀ : Workspace} {m m' m₀ : Memory}

/-- The state of a document. -/
def stateOf? (w : Workspace) (project path : Text) : Option DocumentState :=
  (w.project? project).bind (·.document? path)

/-- The invariant of workspaces, whatever loaders say. -/
structure Tidy (w : Workspace) : Prop where
  sorted : w.projects.Sorted
  path_eq : ∀ e ∈ w.projects, e.2.host.path = e.1
  projects : ∀ e ∈ w.projects, e.2.Tidy w.memory.next

/-- What may become of a document. -/
inductive Passes (m m' : Memory) : Option DocumentState → Option DocumentState → Prop where
  | gone (before : Option DocumentState) : Passes m m' before none
  | kept (d : DocumentState) : Passes m m' (some d) (some d)
  | replaced {d d' : DocumentState} (h : Replaces m m' d d') : Passes m m' (some d) (some d')
  | first {d : DocumentState} (serial_ge : m.next ≤ d.serial) (serial_lt : d.serial < m'.next)
      (findings : m'.findings d.serial = {}) : Passes m m' none (some d)

theorem Passes.refl (m m' : Memory) (d : Option DocumentState) : Passes m m' d d := by
  cases d with
  | none => exact gone none
  | some d => exact kept d

theorem Passes.since {d d' : Option DocumentState} (h : Passes m m' d d') (start : m₀.Extends m)
    (hlt : ∀ x, d = some x → x.serial < m₀.next) : Passes m₀ m' d d' := by
  cases h with
  | gone => exact gone _
  | kept d => exact kept d
  | replaced h => exact replaced (h.since start (hlt _ rfl))
  | first serial_ge serial_lt findings =>
      exact first (Nat.le_trans start.next_le serial_ge) serial_lt findings

/-- A workspace that a change has made of another one. -/
structure Goes (w w' : Workspace) : Prop where
  memory : w.memory.Extends w'.memory
  tidy : w'.Tidy
  passes : ∀ project path,
    Passes w.memory w'.memory (w.stateOf? project path) (w'.stateOf? project path)

theorem tidy_start : Tidy {} where
  sorted := List.Pairwise.nil
  path_eq _ he := absurd he List.not_mem_nil
  projects _ he := absurd he List.not_mem_nil

theorem stateOf?_congr (h : w'.projects = w.projects) (project path : Text) :
    w'.stateOf? project path = w.stateOf? project path := by
  rw [stateOf?, project?, h]
  rfl

namespace Tidy

theorem project_tidy {p : ProjectState} {project : Text} (h : w.Tidy)
    (hp : w.project? project = some p) : p.Tidy w.memory.next ∧ p.host.path = project :=
  have hmem := PathMap.mem_of_get? hp
  ⟨h.projects _ hmem, h.path_eq _ hmem⟩

theorem serial_lt {d : DocumentState} {project path : Text} (h : w.Tidy)
    (hd : w.stateOf? project path = some d) : d.serial < w.memory.next := by
  obtain ⟨p, hp, hd⟩ := Option.bind_eq_some_iff.mp hd
  exact (h.project_tidy hp).1.serial_lt _ (PathMap.mem_of_get? hd)

/-- Other projects stay tidy while one of them changes. -/
theorem of_projects (h : w.Tidy) (memory : w.memory.next ≤ w'.memory.next)
    (sorted : w'.projects.Sorted)
    (hnew : ∀ e ∈ w'.projects, e ∈ w.projects ∨ e.2.host.path = e.1 ∧ e.2.Tidy w'.memory.next) :
    w'.Tidy where
  sorted := sorted
  path_eq e he := (hnew e he).elim (h.path_eq e) And.left
  projects e he := (hnew e he).elim (fun he => (h.projects e he).mono memory) And.right

/-- Only the memory and the open documents may become others. -/
theorem goes_same (h : w.Tidy) (memory : w.memory.Extends w'.memory)
    (hprojects : w'.projects = w.projects) : Goes w w' where
  memory := memory
  tidy := h.of_projects memory.next_le (hprojects ▸ h.sorted) fun _ he => Or.inl (hprojects ▸ he)
  passes project path := by
    rw [stateOf?_congr hprojects]
    exact Passes.refl _ _ _

/-- A change of one project, where documents of other projects are none of its business. -/
theorem goes_set {p' : ProjectState} {project : Text} (h : w.Tidy)
    (memory : w.memory.Extends w'.memory) (hprojects : w'.projects = w.projects.set project p')
    (hpath : p'.host.path = project) (htidy : p'.Tidy w'.memory.next)
    (hpasses : ∀ path,
      Passes w.memory w'.memory (w.stateOf? project path) (p'.document? path)) : Goes w w' where
  memory := memory
  tidy := by
    refine h.of_projects memory.next_le (hprojects ▸ h.sorted.set _ _) ?_
    intro e he
    rw [hprojects] at he
    rcases PathMap.mem_set he with rfl | he
    · exact Or.inr ⟨hpath, htidy⟩
    · exact Or.inl he
  passes q path := by
    have hget : w'.stateOf? q path =
        (if q = project then some p' else w.project? q).bind (·.document? path) := by
      rw [stateOf?, project?, hprojects, PathMap.get?_set, project?]
    rw [hget]
    by_cases hq : q = project
    · rw [if_pos hq, hq]
      exact hpasses path
    · rw [if_neg hq]
      exact Passes.refl _ _ _

/-- What a transition makes of each document of the project. -/
theorem passes_of_turns {p p' : ProjectState} {t : Transition} (h : p.Tidy m.next)
    (ht : Turns m m' p p' t) (path : Text) :
    Passes m m' (p.document? path) (p'.document? path) := by
  cases hget : p'.document? path with
  | none => exact Passes.gone _
  | some d' =>
      rcases ht.origin _ (PathMap.mem_of_get? hget) with ⟨e, he, hrevision⟩ | hfirst
      · have hbefore : p.document? path = some e.2 := by
          refine h.sorted.get?_eq_some ?_
          rw [show path = e.1 from hrevision.path_eq]
          exact he
        rw [hbefore]
        cases hrevision with
        | kept _ => exact Passes.kept _
        | replaced _ hd => exact Passes.replaced hd
      · rw [show p.document? path = none from hfirst.fresh]
        exact Passes.first hfirst.serial_ge hfirst.serial_lt hfirst.findings

/-- A change of one project is a transition of it, or leaves all projects as they are. -/
theorem update (h : w.Tidy) {project : Text} {t : Transition}
    (hhost : ∀ p : ProjectState, p.host.path = project → (t.hostOf p).path = project)
    (kind : EventKind) (document : Option Text) (settle : ProjectState → PathSet → PathSet) :
    Goes w (w.update project kind document settle (t.next? ·)).2 := by
  rw [Workspace.update]
  cases hp : w.project? project with
  | none => exact h.goes_same (Memory.Extends.refl _) rfl
  | some p =>
      obtain ⟨htidy, hpath⟩ := h.project_tidy hp
      dsimp only
      by_cases hclosing : w.isClosing = true
      · rw [if_pos hclosing]
        exact h.goes_same (Memory.Extends.refl _) rfl
      · rw [if_neg hclosing]
        rcases htidy.steps t with ⟨hrun, -⟩ | ⟨p', m', hrun, hturns⟩
        · rw [Workspace.act, hrun]
          exact h.goes_same (Memory.Extends.refl _) rfl
        · rw [Workspace.act, hrun]
          refine h.goes_set hturns.memory rfl ?_ hturns.tidy ?_
          · rw [hturns.host_eq]
            exact hhost p hpath
          · intro path
            rw [stateOf?, hp]
            exact passes_of_turns htidy hturns path

theorem addProject (h : w.Tidy) (host : HostProject) : Goes w (w.addProject host).2 := by
  rw [Workspace.addProject]
  by_cases hthere : w.projects.contains host.path = true
  · rw [if_pos hthere]
    exact h.goes_same (Memory.Extends.refl _) rfl
  · rw [if_neg hthere]
    exact h.goes_set (w.memory.extends_next.trans (Memory.extends_next _)) rfl rfl
      (Reachable.start w.memory host {}).tidy fun _ => Passes.gone _

theorem removeProject (h : w.Tidy) (project : Text) : Goes w (w.removeProject project).2 := by
  rw [Workspace.removeProject]
  cases w.project? project with
  | none => exact h.goes_same (Memory.Extends.refl _) rfl
  | some p =>
      refine ⟨Memory.Extends.refl _, h.of_projects (Nat.le_refl _) (h.sorted.erase project) ?_, ?_⟩
      · intro e he
        exact Or.inl (PathMap.mem_erase.mp he).1
      · intro q path
        show Passes _ _ _ (((w.projects.erase project).get? q).bind (·.document? path))
        rw [PathMap.get?_erase]
        by_cases hq : q = project
        · rw [if_pos hq]
          exact Passes.gone _
        · rw [if_neg hq]
          exact Passes.refl _ _ _

/-- Every change keeps a workspace tidy. -/
theorem apply (h : w.Tidy) (c : Change) : Goes w (w.apply c).2 := by
  cases c with
  | openSolution => exact h.goes_same (Memory.Extends.refl _) rfl
  | closeSolution => exact h.goes_same (Memory.Extends.refl _) rfl
  | addProject host => exact h.addProject host
  | removeProject project => exact h.removeProject project
  | configureProject host => exact h.update (t := .configure host) (fun _ _ => rfl) _ _ _
  | discover project discovery => exact h.update (t := .discover discovery) (fun _ => id) _ _ _
  | addDocument project document loader =>
      exact h.update (t := .addDocument document loader) (fun _ => id) _ _ _
  | removeDocument project path => exact h.update (t := .removeDocument path) (fun _ => id) _ _ _
  | openDocument project path text => exact h.update (t := .changeText path text) (fun _ => id) _ _ _
  | closeDocument project path loader =>
      exact h.update (t := .changeLoader path loader) (fun _ => id) _ _ _
  | changeText project path text => exact h.update (t := .changeText path text) (fun _ => id) _ _ _
  | changeLoader project path loader =>
      exact h.update (t := .changeLoader path loader) (fun _ => id) _ _ _

/-- A planned change, for which a version is handed out first. -/
theorem perform (h : w.Tidy) (plan : Plan) :
    Goes w ((w.act Memory.version).2.apply (plan (w.act Memory.version).1)).2 := by
  have hnext : w.memory.Extends (w.act Memory.version).2.memory := Memory.extends_next _
  have hgoes := (h.goes_same hnext rfl).tidy.apply (plan (w.act Memory.version).1)
  refine ⟨hnext.trans hgoes.memory, hgoes.tidy, ?_⟩
  intro project path
  refine (hgoes.passes project path).since hnext ?_
  intro d hd
  exact h.serial_lt (hd : w.stateOf? project path = some d)

end Tidy

end Workspace

end RazorLang
