import RazorLang.Proofs.Workspace.OpenDocuments

/-!
# Documents that are shown

A document is shown by a workspace if its project has it and it is open (`Workspace.Shows`). Of all changes,
only those that take the document out of its project, or close it, can hide it (`Change.Hides`,
`Workspace.Tidy.shows_apply`): while the solution is not closing, a change of one project is a transition of it
(`Workspace.Tidy.update_steps`), and other documents stay through a transition.
-/

namespace RazorLang

open ProjectState

/-- A project has a document, and the document is open. -/
structure Workspace.Shows (w : Workspace) (project path : Text) : Prop where
  there : ∃ d, w.document? project path = some d
  isOpen : w.isOpen path = true

theorem Workspace.shows_iff_isSome {w : Workspace} {project path : Text} : w.Shows project path ↔
    (w.document? project path).isSome = true ∧ w.isOpen path = true := by
  rw [Option.isSome_iff_exists]
  exact ⟨fun h => ⟨h.there, h.isOpen⟩, fun h => ⟨h.1, h.2⟩⟩

instance (w : Workspace) (project path : Text) : Decidable (w.Shows project path) :=
  decidable_of_iff' _ Workspace.shows_iff_isSome

/-- The change takes a document out of its project, or closes it. -/
def Change.Hides (w : Workspace) (project path : Text) : Change → Prop
  | .removeProject q => q = project
  | .removeDocument q p | .closeDocument q p _ => p = path ∧ (w.project? q).isSome = true
  | _ => False

namespace Workspace

variable {w : Workspace} {project path : Text} {c : Change}

theorem shows_iff : w.Shows project path ↔
    w.isOpen path = true ∧ ∃ p, w.project? project = some p ∧ p.document? path ≠ none := by
  constructor
  · rintro ⟨⟨s, hs⟩, hopen⟩
    obtain ⟨p, hp, hs⟩ := Option.bind_eq_some_iff.mp hs
    obtain ⟨d, hd, -⟩ := Option.map_eq_some_iff.mp hs
    exact ⟨hopen, p, hp, hd ▸ Option.some_ne_none d⟩
  · rintro ⟨hopen, p, hp, hthere⟩
    obtain ⟨d, hd⟩ := Option.ne_none_iff_exists'.mp hthere
    refine ⟨⟨⟨p, d⟩, ?_⟩, hopen⟩
    rw [document?, hp, Option.bind_some, snapshot?, hd]
    rfl

/-- Listeners are told of a project as it is now. -/
theorem newer_update {q : Text} {kind : EventKind} {document : Option Text}
    {settle : ProjectState → PathSet → PathSet}
    {change : ProjectState → StateM Memory (Option ProjectState)} {e : Event} {p : ProjectState}
    (he : (w.update q kind document settle change).1 = some e) (hp : e.newer = some p) :
    (w.update q kind document settle change).2.project? e.project = some p := by
  rw [update] at he ⊢
  cases hq : w.project? q with
  | none =>
      rw [hq] at he
      exact absurd he.symm (Option.some_ne_none e)
  | some older =>
      rw [hq] at he
      dsimp only at he ⊢
      by_cases hclosing : w.isClosing = true
      · rw [if_pos hclosing] at he ⊢
        obtain rfl := Option.some.inj he
        obtain rfl := Option.some.inj hp
        exact hq
      · rw [if_neg hclosing] at he ⊢
        cases hrun : ({ w with openDocuments := settle older w.openDocuments } : Workspace).act
            (change older) with
        | mk after w' =>
            rw [hrun] at he
            cases after with
            | none => exact absurd he.symm (Option.some_ne_none e)
            | some newer =>
                obtain rfl := Option.some.inj he
                obtain rfl := Option.some.inj hp
                exact (PathMap.get?_set q q newer w'.projects).trans (if_pos rfl)

theorem newer_apply {e : Event} {p : ProjectState} (he : (w.apply c).1 = some e)
    (hp : e.newer = some p) : (w.apply c).2.project? e.project = some p := by
  cases c with
  | openSolution | closeSolution => exact absurd he.symm (Option.some_ne_none e)
  | addProject host =>
      rw [apply, addProject] at he ⊢
      by_cases hthere : w.projects.contains host.path = true
      · rw [if_pos hthere] at he
        exact absurd he.symm (Option.some_ne_none e)
      · rw [if_neg hthere] at he ⊢
        obtain rfl := Option.some.inj he
        obtain rfl := Option.some.inj hp
        exact (PathMap.get?_set _ _ _ _).trans (if_pos rfl)
  | removeProject q =>
      rw [apply, removeProject] at he
      cases hq : w.project? q with
      | none =>
          rw [hq] at he
          exact absurd he.symm (Option.some_ne_none e)
      | some older =>
          rw [hq] at he
          obtain rfl := Option.some.inj he
          exact absurd hp.symm (Option.some_ne_none p)
  | configureProject _ | discover _ _ | addDocument _ _ _ | removeDocument _ _ | openDocument _ _ _
  | closeDocument _ _ _ | changeText _ _ _ | changeLoader _ _ _ => exact newer_update he hp

theorem isClosing_update (w : Workspace) (q : Text) (kind : EventKind) (document : Option Text)
    (settle : ProjectState → PathSet → PathSet)
    (change : ProjectState → StateM Memory (Option ProjectState)) :
    (w.update q kind document settle change).2.isClosing = w.isClosing := by
  rw [update]
  cases w.project? q with
  | none => rfl
  | some p =>
      dsimp only
      by_cases hclosing : w.isClosing = true
      · rw [if_pos hclosing]
      · rw [if_neg hclosing]
        dsimp only [act]
        split
        · next heq => exact congrArg (·.2.isClosing) heq.symm
        · next heq => exact congrArg (·.2.isClosing) heq.symm

/-- Only one change closes the solution. -/
theorem isClosing_apply (hclosing : w.isClosing = false) (hc : c ≠ .closeSolution) :
    (w.apply c).2.isClosing = false := by
  cases c with
  | openSolution => rfl
  | closeSolution => exact absurd rfl hc
  | addProject host =>
      rw [apply, addProject]
      split
      · exact hclosing
      · exact hclosing
  | removeProject q =>
      rw [apply, removeProject]
      split
      · exact hclosing
      · exact hclosing
  | configureProject _ | discover _ _ | addDocument _ _ _ | removeDocument _ _ | openDocument _ _ _
  | closeDocument _ _ _ | changeText _ _ _ | changeLoader _ _ _ =>
      exact (isClosing_update ..).trans hclosing

namespace Tidy

/-- A change of one project that is there, while the solution is not closing. -/
theorem update_steps (h : w.Tidy) (hclosing : w.isClosing = false) {q : Text} {p : ProjectState}
    (hp : w.project? q = some p) (t : Transition) (kind : EventKind) (document : Option Text)
    (settle : ProjectState → PathSet → PathSet) :
    (t.IsIdle p ∧ w.update q kind document settle (t.next? ·) =
      (none, { w with openDocuments := settle p w.openDocuments })) ∨
    ∃ p' m', Turns w.memory m' p p' t ∧ w.update q kind document settle (t.next? ·) =
      (some ⟨kind, q, document, some p, some p', false⟩,
        { w with
          projects := w.projects.set q p'
          openDocuments := settle p w.openDocuments
          memory := m' }) := by
  rw [Workspace.update, hp]
  dsimp only
  rw [if_neg (by rw [hclosing]; exact Bool.false_ne_true)]
  rcases (h.project_tidy hp).1.steps t with ⟨hrun, hidle⟩ | ⟨p', m', hrun, hturns⟩
  · rw [Workspace.act, hrun]
    exact Or.inl ⟨hidle, rfl⟩
  · rw [Workspace.act, hrun, hclosing]
    exact Or.inr ⟨p', m', hturns, rfl⟩

/-- A document that a project has, it still has after a transition, unless it is the one that is removed. -/
theorem document?_turns {p p' : ProjectState} {m' : Memory} {t : Transition}
    (hturns : Turns w.memory m' p p' t) (hnot : t ≠ .removeDocument path)
    (hthere : p.document? path ≠ none) : p'.document? path ≠ none := by
  obtain ⟨d, hd⟩ := Option.ne_none_iff_exists'.mp hthere
  obtain ⟨⟨q, d'⟩, hf, hrevision⟩ := (hturns.stays _ (PathMap.mem_of_get? hd)).resolve_left hnot
  obtain rfl : q = path := hrevision.path_eq
  exact PathMap.get?_ne_none hf

/-- A change of one project leaves a document where it is, and open, unless it removes or closes it. -/
theorem shows_update (h : w.Tidy) (hclosing : w.isClosing = false) {q : Text} {t : Transition}
    (kind : EventKind) (document : Option Text) {settle : ProjectState → PathSet → PathSet}
    (hkeeps : ∀ p, w.project? q = some p → t ≠ .removeDocument path ∧
      (path ∈ w.openDocuments → path ∈ settle p w.openDocuments))
    (hshows : w.Shows project path) :
    (w.update q kind document settle (t.next? ·)).2.Shows project path := by
  obtain ⟨hopen, p, hp, hthere⟩ := shows_iff.mp hshows
  cases hq : w.project? q with
  | none =>
      rw [Workspace.update, hq]
      exact hshows
  | some older =>
      obtain ⟨hnot, hsettle⟩ := hkeeps older hq
      rw [shows_iff, isOpen_iff]
      rcases h.update_steps hclosing hq t kind document settle with
        ⟨-, hrun⟩ | ⟨p', m', hturns, hrun⟩
      · rw [hrun]
        exact ⟨hsettle (isOpen_iff.mp hopen), p, hp, hthere⟩
      · rw [hrun]
        refine ⟨hsettle (isOpen_iff.mp hopen), ?_⟩
        by_cases hproject : project = q
        · subst hproject
          obtain rfl := Option.some.inj (hp.symm.trans hq)
          exact ⟨p', (PathMap.get?_set _ _ _ _).trans (if_pos rfl), document?_turns hturns hnot hthere⟩
        · exact ⟨p, (PathMap.get?_set _ _ _ _).trans ((if_neg hproject).trans hp), hthere⟩

theorem shows_addProject (host : HostProject) (hshows : w.Shows project path) :
    (w.addProject host).2.Shows project path := by
  obtain ⟨hopen, p, hp, hthere⟩ := shows_iff.mp hshows
  rw [Workspace.addProject]
  by_cases hadded : w.projects.contains host.path = true
  · rw [if_pos hadded]
    exact hshows
  · rw [if_neg hadded, shows_iff]
    have hne : project ≠ host.path := by
      rintro rfl
      exact hadded (Option.isSome_iff_exists.mpr ⟨p, hp⟩)
    exact ⟨hopen, p, (PathMap.get?_set _ _ _ _).trans ((if_neg hne).trans hp), hthere⟩

theorem shows_removeProject {q : Text} (hne : project ≠ q) (hshows : w.Shows project path) :
    (w.removeProject q).2.Shows project path := by
  obtain ⟨hopen, p, hp, hthere⟩ := shows_iff.mp hshows
  rw [Workspace.removeProject]
  cases hq : w.project? q with
  | none => exact hshows
  | some older =>
      rw [shows_iff]
      exact ⟨hopen, p, (PathMap.get?_erase _ _ _).trans ((if_neg hne).trans hp), hthere⟩

/-- A change that does not hide a document leaves it where it is, and open. -/
theorem shows_apply (h : w.Tidy) (hclosing : w.isClosing = false) (c : Change)
    (hhides : ¬ c.Hides w project path) (hshows : w.Shows project path) :
    (w.apply c).2.Shows project path := by
  -- Of a change that keeps the open documents as they are, only the transition matters.
  have hkeeps {t : Transition} {q : Text} (hnot : ∀ q, t ≠ .removeDocument q) (p : ProjectState)
      (_ : w.project? q = some p) : t ≠ .removeDocument path ∧
        (path ∈ w.openDocuments → path ∈ keepOpen p w.openDocuments) :=
    ⟨hnot path, id⟩
  -- Another document is closed.
  have hcloses {q r : Text} (hne : ¬ (r = path ∧ (w.project? q).isSome = true)) (p : ProjectState)
      (hq : w.project? q = some p) :
      r ≠ path ∧ (path ∈ w.openDocuments → path ∈ PathSet.remove w.openDocuments r) := by
    have hr : r ≠ path := fun hr => hne ⟨hr, hq ▸ rfl⟩
    exact ⟨hr, fun hopen => PathSet.mem_remove.mpr ⟨hopen, hr.symm⟩⟩
  cases c with
  | openSolution | closeSolution => exact ⟨hshows.there, hshows.isOpen⟩
  | addProject host => exact shows_addProject host hshows
  | removeProject q => exact shows_removeProject (fun heq => hhides heq.symm) hshows
  | configureProject host =>
      exact h.shows_update hclosing (t := .configure host) _ _ (hkeeps nofun) hshows
  | discover q discovery =>
      exact h.shows_update hclosing (t := .discover discovery) _ _ (hkeeps nofun) hshows
  | addDocument q document loader =>
      exact h.shows_update hclosing (t := .addDocument document loader) _ _ (hkeeps nofun) hshows
  | changeText q changed text =>
      exact h.shows_update hclosing (t := .changeText changed text) _ _ (hkeeps nofun) hshows
  | changeLoader q changed loader =>
      exact h.shows_update hclosing (t := .changeLoader changed loader) _ _ (hkeeps nofun) hshows
  | openDocument q opened text =>
      refine h.shows_update hclosing (t := .changeText opened text) _ _ ?_ hshows
      exact fun p _ => ⟨nofun, fun hopen => Settling.mem_settle_opens.mpr (Or.inl hopen)⟩
  | removeDocument q removed =>
      refine h.shows_update hclosing (t := .removeDocument removed) _ _ ?_ hshows
      intro p hq
      obtain ⟨hne, hopen⟩ := hcloses hhides p hq
      exact ⟨fun heq => hne (Transition.removeDocument.inj heq), hopen⟩
  | closeDocument q closed loader =>
      refine h.shows_update hclosing (t := .changeLoader closed loader) _ _ ?_ hshows
      exact fun p hq => ⟨nofun, (hcloses hhides p hq).2⟩

end Tidy

end Workspace

end RazorLang
