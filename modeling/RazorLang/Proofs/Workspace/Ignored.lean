import RazorLang.Proofs.Workspace.Visibility

/-!
# Changes that listeners are not told of

A change that has nothing to change raises no event, and then everything that can be asked about projects and
documents should have the same answer as before (`Workspace.AnswersAlike`). The projects and the memory do stay
as they are, since a transition that is idle leaves both alone (`Workspace.Tidy.update_of_unheard`). The set of open
documents is settled before that is known, though: a document that is closed in, or removed from, a project that
does not have it is open no more (`Change.ClosesStranger`), also if it is one of another project. That is the only
way in which a change without an event can be noticed (`Workspace.Course.answersAlike_apply_iff`).
-/

namespace RazorLang

open ProjectState

/-- Whatever is asked about projects and documents has the same answer in both workspaces. -/
structure Workspace.AnswersAlike (w w' : Workspace) : Prop where
  projects : w'.projects.values = w.projects.values
  document : ∀ project path, w'.document? project path = w.document? project path
  projectsWith : ∀ path, w'.projectsWith path = w.projectsWith path
  isOpen : ∀ path, w'.isOpen path = w.isOpen path
  openDocuments : w'.openDocuments = w.openDocuments
  memory : w'.memory = w.memory

/-- The change closes or removes an open document in a project that is there and does not have it. -/
def Change.ClosesStranger (w : Workspace) : Change → Prop
  | .removeDocument project path | .closeDocument project path _ =>
    (w.project? project).isSome = true ∧ w.document? project path = none ∧ w.isOpen path = true
  | _ => False

namespace Workspace

variable {w w' : Workspace}

/-- Answers come from the projects, the open documents and the memory. -/
theorem answersAlike_iff (w : Workspace) (s : PathSet) (isClosing : Bool) :
    w.AnswersAlike { w with openDocuments := s, isClosing } ↔ s = w.openDocuments := by
  constructor
  · intro h
    exact h.openDocuments
  · rintro rfl
    exact ⟨rfl, fun _ _ => rfl, fun _ => rfl, fun _ => rfl, rfl, rfl⟩

theorem AnswersAlike.refl (w : Workspace) : w.AnswersAlike w :=
  (w.answersAlike_iff w.openDocuments w.isClosing).mpr rfl

theorem document?_eq_none_iff {project path : Text} {p : ProjectState}
    (hp : w.project? project = some p) : w.document? project path = none ↔ p.document? path = none := by
  rw [document?, hp, Option.bind_some, snapshot?, Option.map_eq_none_iff]

namespace Tidy

/-- A change of one project that raises no event: the project is not there, or has nothing to change. -/
theorem update_of_unheard (h : w.Tidy) {project : Text} {t : Transition} {kind : EventKind}
    {document : Option Text} {settle : ProjectState → PathSet → PathSet}
    (hnone : (w.update project kind document settle (t.next? ·)).1 = none) :
    (w.project? project = none ∧ (w.update project kind document settle (t.next? ·)).2 = w) ∨
      ∃ p, w.project? project = some p ∧ t.IsIdle p ∧
        (w.update project kind document settle (t.next? ·)).2 =
          { w with openDocuments := settle p w.openDocuments } := by
  cases hp : w.project? project with
  | none =>
      refine Or.inl ⟨rfl, ?_⟩
      rw [Workspace.update, hp]
  | some p =>
      by_cases hclosing : w.isClosing = true
      · -- While the solution is closing, listeners are told even so.
        rw [Workspace.update, hp] at hnone
        dsimp only at hnone
        rw [if_pos hclosing] at hnone
        exact absurd hnone (Option.some_ne_none _)
      · rcases h.update_steps (Bool.not_eq_true _ ▸ hclosing) hp t kind document settle with
          ⟨hidle, hrun⟩ | ⟨p', m', -, hrun⟩
        · exact Or.inr ⟨p, rfl, hidle, congrArg Prod.snd hrun⟩
        · rw [hrun] at hnone
          exact absurd hnone (Option.some_ne_none _)

/-- Where open documents are not settled, a change that raises no event does nothing. -/
theorem update_eq_self (h : w.Tidy) {project : Text} {t : Transition} {kind : EventKind}
    {document : Option Text}
    (hnone : (w.update project kind document keepOpen (t.next? ·)).1 = none) :
    (w.update project kind document keepOpen (t.next? ·)).2 = w := by
  rcases h.update_of_unheard hnone with ⟨-, hsame⟩ | ⟨p, -, -, hsame⟩
  · exact hsame
  · exact hsame

/-- Where a document is closed without an event, it is open no more, and all else stays as it is. -/
theorem answersAlike_of_closes (h : w.Tidy) {project path : Text} {t : Transition} {kind : EventKind}
    (hidle : ∀ p, t.IsIdle p ↔ p.document? path = none)
    (hnone : (w.update project kind (some path) (fun _ s => PathSet.remove s path) (t.next? ·)).1 = none) :
    w.AnswersAlike
        (w.update project kind (some path) (fun _ s => PathSet.remove s path) (t.next? ·)).2 ↔
      ¬ ((w.project? project).isSome = true ∧ w.document? project path = none ∧ w.isOpen path = true) := by
  rcases h.update_of_unheard hnone with ⟨hp, hsame⟩ | ⟨p, hp, hisIdle, hsame⟩
  · rw [hsame, hp]
    refine iff_of_true (AnswersAlike.refl w) ?_
    rintro ⟨hthere, -⟩
    exact Bool.false_ne_true hthere
  · have habsent : w.document? project path = none :=
      (document?_eq_none_iff hp).mpr ((hidle p).mp hisIdle)
    have hremove : PathSet.remove w.openDocuments path = w.openDocuments ↔ ¬ w.isOpen path = true := by
      rw [isOpen_iff, PathSet.remove, List.filter_eq_self]
      constructor
      · intro hall hmem
        exact bne_iff_ne.mp (hall path hmem) rfl
      · intro hclosed q hq
        exact bne_iff_ne.mpr fun heq => hclosed (heq ▸ hq)
    rw [hsame, answersAlike_iff, hremove, hp]
    simp [habsent]

end Tidy

namespace Course

variable {trail : List (Workspace × Change)}

/-- Whatever has happened before, a change that listeners are not told of changes no answer, unless it closes
    an open document in a project that does not have it. -/
theorem answersAlike_apply_iff (h : Course trail w) {c : Change} (hnone : (w.apply c).1 = none) :
    w.AnswersAlike (w.apply c).2 ↔ ¬ c.ClosesStranger w := by
  have hself {w' : Workspace} (hsame : w' = w) : w.AnswersAlike w' ↔ ¬ False :=
    iff_of_true (hsame ▸ AnswersAlike.refl w) id
  replace h : w.Tidy := h.tidy
  cases c with
  | openSolution => exact iff_of_true ((w.answersAlike_iff _ false).mpr rfl) id
  | closeSolution => exact iff_of_true ((w.answersAlike_iff _ true).mpr rfl) id
  | addProject host =>
      refine hself ?_
      rw [Workspace.apply, Workspace.addProject] at hnone ⊢
      by_cases hthere : w.projects.contains host.path = true
      · rw [if_pos hthere]
      · rw [if_neg hthere] at hnone
        exact absurd hnone (Option.some_ne_none _)
  | removeProject project =>
      refine hself ?_
      rw [Workspace.apply, Workspace.removeProject] at hnone ⊢
      cases hp : w.project? project with
      | none => rfl
      | some p =>
          rw [hp] at hnone
          exact absurd hnone (Option.some_ne_none _)
  | configureProject host => exact hself (h.update_eq_self (t := .configure host) hnone)
  | discover project discovery => exact hself (h.update_eq_self (t := .discover discovery) hnone)
  | addDocument project document loader =>
      exact hself (h.update_eq_self (t := .addDocument document loader) hnone)
  | changeText project path text => exact hself (h.update_eq_self (t := .changeText path text) hnone)
  | changeLoader project path loader =>
      exact hself (h.update_eq_self (t := .changeLoader path loader) hnone)
  | openDocument project path text =>
      -- Only a document that the project has is put among the open ones.
      refine hself ?_
      rcases h.update_of_unheard (t := .changeText path text) hnone with
        ⟨-, hsame⟩ | ⟨p, hp, hidle, hsame⟩
      · exact hsame
      · have habsent : p.document? path = none := hidle
        exact hsame.trans (by rw [habsent]; rfl)
  | removeDocument project path =>
      exact h.answersAlike_of_closes (t := .removeDocument path) (fun _ => Iff.rfl) hnone
  | closeDocument project path loader =>
      exact h.answersAlike_of_closes (t := .changeLoader path loader) (fun _ => Iff.rfl) hnone

/-! ## Two projects -/

/-- One of two projects has a page, which is open. -/
def openInOne : List (Workspace × Change) × Workspace :=
  walk (arrival "/a" ++ [.addProject { path := "/b" }, .openDocument "/a" "P.cshtml" "@y"])

/-- A page that neither of them has is removed from the other project. -/
theorem answersAlike_apply_iff_missing :
    Course openInOne.1 openInOne.2 ∧ (openInOne.2.apply (.removeDocument "/b" "Q.cshtml")).1 = none ∧
      openInOne.2.isOpen "P.cshtml" = true ∧
      openInOne.2.AnswersAlike (openInOne.2.apply (.removeDocument "/b" "Q.cshtml")).2 := by
  have h : Course openInOne.1 openInOne.2 := course_walk _
  have hnone : (openInOne.2.apply (.removeDocument "/b" "Q.cshtml")).1 = none :=
    Option.isNone_iff_eq_none.mp (by decide +kernel)
  have hclosed : openInOne.2.isOpen "Q.cshtml" = false := by decide +kernel
  refine ⟨h, hnone, by decide +kernel, (answersAlike_apply_iff h hnone).mpr ?_⟩
  rintro ⟨-, -, hopen⟩
  exact Bool.false_ne_true (hclosed.symm.trans hopen)

/-- The open page is removed from the project that does not have it. Nobody is told, and it is open no more. -/
theorem not_answersAlike_removedElsewhere :
    Course openInOne.1 openInOne.2 ∧ openInOne.2.isClosing = false ∧
      (openInOne.2.apply (.removeDocument "/b" "P.cshtml")).1 = none ∧
      openInOne.2.isOpen "P.cshtml" = true ∧
      (openInOne.2.apply (.removeDocument "/b" "P.cshtml")).2.isOpen "P.cshtml" = false ∧
      ¬ openInOne.2.AnswersAlike (openInOne.2.apply (.removeDocument "/b" "P.cshtml")).2 := by
  have hbefore : openInOne.2.isOpen "P.cshtml" = true := by decide +kernel
  have hafter : (openInOne.2.apply (.removeDocument "/b" "P.cshtml")).2.isOpen "P.cshtml" = false := by
    decide +kernel
  refine ⟨course_walk _, by decide +kernel, Option.isNone_iff_eq_none.mp (by decide +kernel), hbefore, hafter, ?_⟩
  intro h
  have hsame := h.isOpen "P.cshtml"
  rw [hbefore, hafter] at hsame
  exact Bool.false_ne_true hsame

end Course

end Workspace

end RazorLang
