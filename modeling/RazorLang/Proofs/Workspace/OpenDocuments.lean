import RazorLang.Proofs.Workspace.Change
import RazorLang.Proofs.Workspace.Passage

/-!
# Open documents and projects

The set of open documents is kept beside the projects. Only a document of a project is opened, and a document
that is removed from a project is open no more. A project, though, can be removed while documents of it are
open, and then they stay open; where no other project has such a document, it is abandoned
(`Change.Abandons`). That is the only way in which an open document can be without a project
(`Workspace.Course.isHoused_iff`).
-/

namespace RazorLang

open ProjectState

namespace Workspace

/-- The document at a path is one of some project, if it is open. -/
def IsHoused (w : Workspace) (path : Text) : Prop := w.isOpen path = true → w.projectsWith path ≠ []

/-- The changes that a workspace has gone through, each with the workspace that it was made of, the latest
    first. In between anything may be loaded and generated. -/
inductive Course : List (Workspace × Change) → Workspace → Prop where
  | start : Course [] {}
  | later {trail : List (Workspace × Change)} {w : Workspace} (h : Course trail w) (m : Memory)
      (hle : w.memory.next ≤ m.next) : Course trail { w with memory := m }
  | step {trail : List (Workspace × Change)} {w : Workspace} (h : Course trail w) (c : Change) :
      Course ((w, c) :: trail) (w.apply c).2

end Workspace

/-- The project that is removed is the only one that has the document at a path, and the document is open. -/
def Change.Abandons (w : Workspace) (path : Text) : Change → Prop
  | .removeProject project => w.isOpen path = true ∧ w.projectsWith path ≠ [] ∧
      ∀ p ∈ w.projectsWith path, p.host.path = project
  | _ => False

instance (w : Workspace) (path : Text) : ∀ c : Change, Decidable (c.Abandons w path)
  | .removeProject _ => inferInstanceAs (Decidable (_ ∧ _ ∧ _))
  | .openSolution | .closeSolution | .addProject _ | .configureProject _ | .discover _ _
  | .addDocument _ _ _ | .removeDocument _ _ | .openDocument _ _ _ | .closeDocument _ _ _
  | .changeText _ _ _ | .changeLoader _ _ _ => inferInstanceAs (Decidable False)

namespace Workspace

variable {w w' : Workspace} {path : Text}

theorem mem_projectsWith {p : ProjectState} :
    p ∈ w.projectsWith path ↔ p ∈ w.projects.values ∧ ∃ d, (path, d) ∈ p.documents := by
  rw [projectsWith, List.mem_filter, Option.isSome_iff_ne_none]
  refine and_congr_right fun _ => ?_
  constructor
  · intro hsome
    obtain ⟨d, hd⟩ := Option.ne_none_iff_exists'.mp hsome
    exact ⟨d, PathMap.mem_of_get? hd⟩
  · rintro ⟨d, hd⟩
    exact PathMap.get?_ne_none hd

theorem projectsWith_ne_nil_iff :
    w.projectsWith path ≠ [] ↔ ∃ e ∈ w.projects, ∃ d, (path, d) ∈ e.2.documents := by
  constructor
  · intro hne
    obtain ⟨p, hp⟩ := List.exists_mem_of_ne_nil _ hne
    obtain ⟨hvalue, hd⟩ := mem_projectsWith.mp hp
    obtain ⟨e, he, rfl⟩ := List.mem_map.mp hvalue
    exact ⟨e, he, hd⟩
  · rintro ⟨e, he, hd⟩
    exact List.ne_nil_of_mem (mem_projectsWith.mpr ⟨List.mem_map_of_mem he, hd⟩)

/-- Projects and open documents may be others, as long as the document at the path is not opened and does not
    go. -/
theorem IsHoused.mono (h : w.IsHoused path) (hopen : w'.isOpen path = true → w.isOpen path = true)
    (hhas : w.projectsWith path ≠ [] → w'.projectsWith path ≠ []) : w'.IsHoused path :=
  fun hpath => hhas (h (hopen hpath))

namespace Tidy

/-- What a project has, it still has after a transition, unless that is what is removed. -/
theorem projectsWith_set (h : w.Tidy) {p p' : ProjectState} {m' : Memory} {project : Text} {t : Transition}
    (hp : w.project? project = some p) (hturns : Turns w.memory m' p p' t)
    (hprojects : w'.projects = w.projects.set project p') (hnot : t ≠ .removeDocument path)
    (hhas : w.projectsWith path ≠ []) : w'.projectsWith path ≠ [] := by
  obtain ⟨e, he, d, hd⟩ := projectsWith_ne_nil_iff.mp hhas
  rw [projectsWith_ne_nil_iff, hprojects]
  by_cases hproject : e.1 = project
  · obtain rfl : e.2 = p :=
      h.sorted.value_eq he (hproject ▸ PathMap.mem_of_get? hp)
    obtain ⟨f, hf, hrevision⟩ := (hturns.stays _ hd).resolve_left hnot
    have hpath : f.1 = path := hrevision.path_eq
    have hset : (w.projects.set project p').get? project = some p' :=
      (PathMap.get?_set project project p' w.projects).trans (if_pos rfl)
    exact ⟨(project, p'), PathMap.mem_of_get? hset, f.2, hpath ▸ hf⟩
  · exact ⟨e, PathMap.mem_set_of_ne he hproject, d, hd⟩

/-- A change of one project takes away no open document, where documents that it removes are open no more. -/
theorem isHoused_update (h : w.Tidy) {project : Text} {t : Transition} (kind : EventKind)
    (document : Option Text) {settle : ProjectState → PathSet → PathSet}
    (hsettle : ∀ p : ProjectState, path ∈ settle p w.openDocuments → t ≠ .removeDocument path ∧
      (path ∈ w.openDocuments ∨ (p.document? path).isSome = true))
    (hw : w.IsHoused path) :
    (w.update project kind document settle (t.next? ·)).2.IsHoused path := by
  rw [Workspace.update]
  cases hp : w.project? project with
  | none => exact hw
  | some p =>
      dsimp only
      by_cases hclosing : w.isClosing = true
      · rw [if_pos hclosing]
        exact hw
      · rw [if_neg hclosing]
        -- An open document is one of a project before the transition.
        have hbefore (hpath : path ∈ settle p w.openDocuments) : w.projectsWith path ≠ [] := by
          rcases (hsettle p hpath).2 with hopen | hthere
          · exact hw (isOpen_iff.mpr hopen)
          · obtain ⟨d, hd⟩ := Option.isSome_iff_exists.mp hthere
            exact projectsWith_ne_nil_iff.mpr
              ⟨(project, p), PathMap.mem_of_get? hp, d, PathMap.mem_of_get? hd⟩
        rcases (h.project_tidy hp).1.steps t with ⟨hrun, -⟩ | ⟨p', m', hrun, hturns⟩
        · rw [Workspace.act, hrun]
          exact fun hopen => hbefore (isOpen_iff.mp hopen)
        · rw [Workspace.act, hrun]
          intro hopen
          have hpath : path ∈ settle p w.openDocuments := isOpen_iff.mp hopen
          exact h.projectsWith_set hp hturns rfl (hsettle p hpath).1 (hbefore hpath)

theorem isHoused_addProject (host : HostProject) (hw : w.IsHoused path) :
    (w.addProject host).2.IsHoused path := by
  rw [Workspace.addProject]
  by_cases hthere : w.projects.contains host.path = true
  · rw [if_pos hthere]
    exact hw
  · rw [if_neg hthere]
    refine hw.mono id ?_
    intro hhas
    obtain ⟨e, he, hd⟩ := projectsWith_ne_nil_iff.mp hhas
    have hne : e.1 ≠ host.path := by
      intro heq
      rw [PathMap.contains, Option.isSome_iff_ne_none, ← heq] at hthere
      exact hthere (PathMap.get?_ne_none he)
    exact projectsWith_ne_nil_iff.mpr ⟨e, PathMap.mem_set_of_ne he hne, hd⟩

/-- The removal of a project leaves the open documents as they are, so only another project can have them. -/
theorem isHoused_removeProject_iff (h : w.Tidy) (project : Text) (hw : w.IsHoused path) :
    (w.removeProject project).2.IsHoused path ↔ ¬ (Change.removeProject project).Abandons w path := by
  have hpath (e : Text × ProjectState) (he : e ∈ w.projects) : e.2.host.path = e.1 := h.path_eq e he
  rw [Workspace.removeProject]
  cases hp : w.project? project with
  | none =>
      refine iff_of_true hw ?_
      rintro ⟨-, hhas, honly⟩
      obtain ⟨e, he, hd⟩ := projectsWith_ne_nil_iff.mp hhas
      have heq := honly e.2 (mem_projectsWith.mpr ⟨List.mem_map_of_mem he, hd⟩)
      rw [hpath e he] at heq
      exact PathMap.get?_ne_none (heq ▸ he : (project, e.2) ∈ w.projects) hp
  | some p =>
      constructor
      · rintro hhoused ⟨hopen, -, honly⟩
        obtain ⟨e, he, hd⟩ := projectsWith_ne_nil_iff.mp (hhoused hopen)
        obtain ⟨he, hne⟩ := PathMap.mem_erase.mp he
        refine hne ((hpath e he).symm.trans ?_)
        exact honly e.2 (mem_projectsWith.mpr ⟨List.mem_map_of_mem he, hd⟩)
      · intro hnot hopen
        have hhas : w.projectsWith path ≠ [] := hw hopen
        obtain ⟨q, hq, hother⟩ : ∃ q ∈ w.projectsWith path, q.host.path ≠ project := by
          by_contra hnone
          exact hnot ⟨hopen, hhas, fun q hq => by_contra fun hne => hnone ⟨q, hq, hne⟩⟩
        obtain ⟨hvalue, hd⟩ := mem_projectsWith.mp hq
        obtain ⟨e, he, rfl⟩ := List.mem_map.mp hvalue
        exact projectsWith_ne_nil_iff.mpr
          ⟨e, PathMap.mem_erase.mpr ⟨he, fun heq => hother ((hpath e he).trans heq)⟩, hd⟩

/-- Of all changes, only the removal of a project can leave an open document without one. -/
theorem isHoused_apply_iff (h : w.Tidy) (c : Change) (hw : w.IsHoused path) :
    (w.apply c).2.IsHoused path ↔ ¬ c.Abandons w path := by
  have hkeeps {t : Transition} (hnot : ∀ q, t ≠ .removeDocument q) (p : ProjectState)
      (hpath : path ∈ keepOpen p w.openDocuments) : t ≠ .removeDocument path ∧
        (path ∈ w.openDocuments ∨ (p.document? path).isSome = true) :=
    ⟨hnot path, Or.inl hpath⟩
  -- the other changes are steps of a project, which take away no document that is open behind them
  cases c with
  | openSolution | closeSolution => exact iff_of_true hw id
  | addProject host => exact iff_of_true (isHoused_addProject host hw) id
  | removeProject project => exact h.isHoused_removeProject_iff project hw
  | configureProject host =>
      exact iff_of_true (h.isHoused_update (t := .configure host) _ _ (hkeeps nofun) hw) id
  | discover project discovery =>
      exact iff_of_true (h.isHoused_update (t := .discover discovery) _ _ (hkeeps nofun) hw) id
  | addDocument project document loader =>
      exact iff_of_true
        (h.isHoused_update (t := .addDocument document loader) _ _ (hkeeps nofun) hw) id
  | changeText project changed text =>
      exact iff_of_true (h.isHoused_update (t := .changeText changed text) _ _ (hkeeps nofun) hw) id
  | changeLoader project changed loader =>
      exact iff_of_true
        (h.isHoused_update (t := .changeLoader changed loader) _ _ (hkeeps nofun) hw) id
  | removeDocument project removed =>
      refine iff_of_true (h.isHoused_update (t := .removeDocument removed) _ _ ?_ hw) id
      intro p hpath
      obtain ⟨hopen, hne⟩ := PathSet.mem_remove.mp hpath
      exact ⟨fun heq => hne (Transition.removeDocument.inj heq).symm, Or.inl hopen⟩
  | closeDocument project closed loader =>
      refine iff_of_true (h.isHoused_update (t := .changeLoader closed loader) _ _ ?_ hw) id
      intro p hpath
      exact ⟨nofun, Or.inl (PathSet.mem_remove.mp hpath).1⟩
  | openDocument project opened text =>
      refine iff_of_true (h.isHoused_update (t := .changeText opened text) _ _ ?_ hw) id
      intro p hpath
      refine ⟨nofun, ?_⟩
      rcases Settling.mem_settle_opens.mp hpath with hopen | ⟨rfl, hthere⟩
      · exact Or.inl hopen
      · exact Or.inr hthere

end Tidy

namespace Course

variable {trail : List (Workspace × Change)}

theorem tidy (h : Course trail w) : w.Tidy := by
  induction h with
  | start => exact tidy_start
  | later h m hle ih => exact ih.of_projects hle ih.sorted fun _ he => Or.inl he
  | step h c ih => exact (ih.apply c).tidy

/-- Through all changes a document is one of some project whenever it is open, unless a project is removed
    that is the only one to have it while it is open. -/
theorem isHoused_iff (h : Course trail w) (path : Text) :
    (∀ v ∈ w :: trail.map Prod.fst, v.IsHoused path) ↔ ∀ s ∈ trail, ¬ s.2.Abandons s.1 path := by
  induction h with
  | start =>
      refine iff_of_true ?_ fun s hs => absurd hs List.not_mem_nil
      intro v hv
      rw [List.mem_singleton.mp hv]
      exact fun hopen => absurd (isOpen_iff.mp hopen) List.not_mem_nil
  | later h m hle ih =>
      -- What is known about documents tells nothing of which there are and which are open.
      rw [List.forall_mem_cons] at ih ⊢
      exact ih
  | @step trail w h c ih =>
      constructor
      · intro hall
        obtain ⟨hafter, hbefore⟩ := List.forall_mem_cons.mp hall
        have hw : w.IsHoused path := hbefore w List.mem_cons_self
        exact List.forall_mem_cons.mpr ⟨(h.tidy.isHoused_apply_iff c hw).mp hafter, ih.mp hbefore⟩
      · intro hnone
        obtain ⟨hnot, hrest⟩ := List.forall_mem_cons.mp hnone
        have hbefore := ih.mpr hrest
        have hw : w.IsHoused path := hbefore w List.mem_cons_self
        exact List.forall_mem_cons.mpr ⟨(h.tidy.isHoused_apply_iff c hw).mpr hnot, hbefore⟩

/-! ## A project is removed -/

/-- The course of a workspace with one more change. -/
def extend (course : List (Workspace × Change) × Workspace) (c : Change) :
    List (Workspace × Change) × Workspace :=
  ((course.2, c) :: course.1, (course.2.apply c).2)

theorem foldl_extend (h : Course trail w) (changes : List Change) :
    Course (changes.foldl extend (trail, w)).1 (changes.foldl extend (trail, w)).2 := by
  induction changes generalizing trail w with
  | nil => exact h
  | cons c changes ih => exact ih (h.step c)

/-- The course of a workspace that begins empty. -/
def walk (changes : List Change) : List (Workspace × Change) × Workspace :=
  changes.foldl extend ([], {})

theorem course_walk (changes : List Change) : Course (walk changes).1 (walk changes).2 :=
  start.foldl_extend changes

/-- A project with a page comes. -/
def arrival (project : Text) : List Change :=
  [.addProject { path := project },
    .addDocument project (.new "P.cshtml" "P.cshtml") (.known ⟨"@x", ⟨0⟩⟩)]

/-- Some projects have a page, which is opened in one of them before that project is removed. -/
def removal (projects : List Text) : List (Workspace × Change) × Workspace :=
  walk (projects.flatMap arrival ++ [.openDocument "/a" "P.cshtml" "@y", .removeProject "/a"])

/-- The page is still one of the other project. -/
theorem isHoused_iff_twoProjects :
    Course (removal ["/a", "/b"]).1 (removal ["/a", "/b"]).2 ∧
    (∀ s ∈ (removal ["/a", "/b"]).1, ¬ s.2.Abandons s.1 "P.cshtml") ∧
    (removal ["/a", "/b"]).2.isOpen "P.cshtml" = true ∧
    ∀ v ∈ (removal ["/a", "/b"]).2 :: (removal ["/a", "/b"]).1.map Prod.fst, v.IsHoused "P.cshtml" := by
  have h : Course (removal ["/a", "/b"]).1 (removal ["/a", "/b"]).2 := course_walk _
  have hnone : ∀ s ∈ (removal ["/a", "/b"]).1, ¬ s.2.Abandons s.1 "P.cshtml" := by decide +kernel
  exact ⟨h, hnone, by decide +kernel, (isHoused_iff h "P.cshtml").mpr hnone⟩

/-- Where there is no other project, the page is open without a project. -/
theorem not_isHoused_oneProject :
    Course (removal ["/a"]).1 (removal ["/a"]).2 ∧ (removal ["/a"]).2.isOpen "P.cshtml" = true ∧
      (removal ["/a"]).2.projectsWith "P.cshtml" = [] :=
  ⟨course_walk _, by decide +kernel, by decide +kernel⟩

end Course

end Workspace

end RazorLang
