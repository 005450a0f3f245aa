import RazorLang.Proofs.Workspace.Convergence
import RazorLang.Proofs.Workspace.Request
import RazorLang.Proofs.Workspace.Visibility

/-!
# What the client keeps of closed documents

The client should have copies of open documents only. What it has of a document is forgotten when the document
is closed or removed, but work for the document that waits at that time is done all the same, and then the
client has copies again; and what is forgotten is only what the client has of the document in the project in
which it is closed, while it is closed for all projects. `Change.Strands` lists the changes that leave copies or
work behind in this way.

The invariant is that a document of which the client has copies, or for which work waits, is one of its project
and open, unless it is stranded (`Session.IsFrugal`): some change has stranded it, and it has not been shown
since (`Session.IsStranded`). A change that does not strand the document keeps it
(`Workspace.Tidy.shows_told`):

* work is added for open documents of the changed project only, and no copies are (`Publisher.Gains`);
* what the change does not hide stays where it is, and open (`Workspace.Tidy.shows_apply`);
* what it hides is forgotten (`Workspace.Tidy.isForgotten_apply`).

Nothing is asked of the loaders that changes bring.
-/

namespace RazorLang

open ProjectState

theorem WorkQueue.eq_or_mem_of_mem_put {α : Type} {key : Text} {a : α} {waiting : List (Text × α)}
    {x : Text × α} (h : x ∈ put key a waiting) : x = (key, a) ∨ x ∈ waiting := by
  induction waiting with
  | nil => exact Or.inl (List.mem_singleton.mp h)
  | cons e rest ih =>
      obtain ⟨k, b⟩ := e
      rw [put] at h
      by_cases hk : k = key
      · rw [if_pos hk, hk] at h
        exact (List.mem_cons.mp h).imp_right (List.mem_cons_of_mem _)
      · rw [if_neg hk] at h
        rcases List.mem_cons.mp h with rfl | h
        · exact Or.inr List.mem_cons_self
        · exact (ih h).imp_right (List.mem_cons_of_mem _)

namespace Publisher

/-- Work for a document waits. -/
def Awaits (pub : Publisher) (project path : Text) : Prop :=
  ∃ x ∈ pub.queue.waiting, x.2.project.host.path = project ∧ x.2.state.host.path = path

instance (pub : Publisher) (project path : Text) : Decidable (pub.Awaits project path) :=
  inferInstanceAs (Decidable (∃ x ∈ pub.queue.waiting, _ ∧ _))

theorem not_awaits {pub : Publisher} {project path : Text} (h : pub.queue.waiting = []) :
    ¬ pub.Awaits project path := by
  rintro ⟨x, hx, -⟩
  rw [h] at hx
  exact List.not_mem_nil hx

/-- What the publisher makes of the outcome of a change. -/
def told (pub : Publisher) (outcome : Option Event × Workspace) : Publisher :=
  outcome.1.elim pub (pub.note outcome.2)

end Publisher

/-- The change hides a document while work for it waits, or it does so in another project while the client has
    copies of it. -/
def Change.Strands (w : Workspace) (pub : Publisher) (project path : Text) : Change → Prop
  | .removeProject q => q = project ∧ pub.Awaits project path
  | .removeDocument q p | .closeDocument q p _ => p = path ∧ (w.project? q).isSome = true ∧
      (pub.Awaits project path ∨ q ≠ project ∧ pub.hasPublished project path = true)
  | _ => False

instance (w : Workspace) (pub : Publisher) (project path : Text) :
    ∀ c : Change, Decidable (c.Strands w pub project path)
  | .removeProject _ => inferInstanceAs (Decidable (_ ∧ _))
  | .removeDocument _ _ | .closeDocument _ _ _ => inferInstanceAs (Decidable (_ ∧ _ ∧ _))
  | .openSolution | .closeSolution | .addProject _ | .configureProject _ | .discover _ _
  | .addDocument _ _ _ | .openDocument _ _ _ | .changeText _ _ _ | .changeLoader _ _ _ =>
    inferInstanceAs (Decidable False)

theorem Change.Hides.strands {w : Workspace} {pub : Publisher} {project path : Text} {c : Change}
    (h : c.Hides w project path) (hawaits : pub.Awaits project path) :
    c.Strands w pub project path := by
  cases c with
  | removeProject q => exact ⟨h, hawaits⟩
  | removeDocument q p => exact ⟨h.1, h.2, Or.inl hawaits⟩
  | closeDocument q p loader => exact ⟨h.1, h.2, Or.inl hawaits⟩
  | openSolution | closeSolution | addProject _ | configureProject _ | discover _ _
  | addDocument _ _ _ | openDocument _ _ _ | changeText _ _ _ | changeLoader _ _ _ => exact h.elim

/-- What a change strands depends on the projects that there are. -/
theorem Change.strands_congr {w w' : Workspace} (h : ∀ q, w'.project? q = w.project? q) (pub : Publisher)
    (project path : Text) (c : Change) :
    c.Strands w' pub project path ↔ c.Strands w pub project path := by
  cases c with
  | removeDocument q p | closeDocument q p _ => rw [Strands, Strands, h]
  | removeProject _ | openSolution | closeSolution | addProject _ | configureProject _ | discover _ _
  | addDocument _ _ _ | openDocument _ _ _ | changeText _ _ _ | changeLoader _ _ _ => exact Iff.rfl

/-! ## What a publisher adds -/

namespace Publisher

variable {pub pub' pub'' : Publisher} {w : Workspace} {newer : Option ProjectState} {p : ProjectState}
  {s : DocumentSnapshot} {project path : Text}

/-- One publisher has come of another one while a project has become a newer one: work is added for open
    documents of that project only, and no copies are. -/
structure Gains (w : Workspace) (newer : Option ProjectState) (pub pub' : Publisher) : Prop where
  awaits : ∀ project path, pub'.Awaits project path → pub.Awaits project path ∨
    w.isOpen path = true ∧ ∃ p, newer = some p ∧ p.host.path = project ∧ p.document? path ≠ none
  published : ∀ project path, pub'.hasPublished project path = true →
    pub.hasPublished project path = true

theorem Gains.refl (w : Workspace) (newer : Option ProjectState) (pub : Publisher) :
    Gains w newer pub pub :=
  ⟨fun _ _ => Or.inl, fun _ _ => id⟩

theorem Gains.trans (h : Gains w newer pub pub') (h' : Gains w newer pub' pub'') :
    Gains w newer pub pub'' where
  awaits project path hawaits := (h'.awaits project path hawaits).elim (h.awaits project path) Or.inr
  published project path hpublished := h.published project path (h'.published project path hpublished)

theorem hasPublished_forget (pub : Publisher) (q p : Text) :
    (pub.forget q p).hasPublished project path = true ↔
      (project, path) ≠ (q, p) ∧ pub.hasPublished project path = true := by
  rw [hasPublished, lookup_forget]
  by_cases hk : (project, path) = (q, p)
  · rw [if_pos hk]
    exact iff_of_false Bool.false_ne_true fun h => h.1 hk
  · rw [if_neg hk]
    exact (and_iff_right hk).symm

theorem hasPublished_forgetProject (pub : Publisher) (q : Text) :
    (pub.forgetProject q).hasPublished project path = true ↔
      project ≠ q ∧ pub.hasPublished project path = true := by
  rw [hasPublished, lookup_forgetProject]
  by_cases hq : project = q
  · rw [if_pos hq]
    exact iff_of_false Bool.false_ne_true fun h => h.1 hq
  · rw [if_neg hq]
    exact (and_iff_right hq).symm

theorem Gains.forget (h : Gains w newer pub pub') (q p : Text) : Gains w newer pub (pub'.forget q p) :=
  h.trans ⟨fun _ _ => Or.inl, fun _ _ h => ((hasPublished_forget pub' q p).mp h).2⟩

theorem Gains.forgetProject (h : Gains w newer pub pub') (q : Text) :
    Gains w newer pub (pub'.forgetProject q) :=
  h.trans ⟨fun _ _ => Or.inl, fun _ _ h => ((hasPublished_forgetProject pub' q).mp h).2⟩

/-- An open document of the newer project is scheduled. -/
theorem Gains.schedule (h : Gains w (some p) pub pub') (hpath : ∀ x ∈ p.documents, x.2.host.path = x.1)
    (hs : p.snapshot? path = some s) (hopen : w.isOpen path = true) :
    Gains w (some p) pub (pub'.schedule s) := by
  refine h.trans ⟨?_, fun _ _ => id⟩
  rintro project q ⟨x, hx, hproject, hq⟩
  rcases WorkQueue.eq_or_mem_of_mem_put hx with rfl | hx
  · obtain ⟨d, hd, rfl⟩ := Option.map_eq_some_iff.mp hs
    obtain rfl : path = q := (hpath _ (PathMap.mem_of_get? hd)).symm.trans hq
    exact Or.inr ⟨hopen, p, rfl, hproject, hd ▸ Option.some_ne_none d⟩
  · exact Or.inl ⟨x, hx, hproject, hq⟩

/-- Those of some documents of the newer project that are open are scheduled. -/
theorem Gains.scheduleOpen (h : Gains w (some p) pub pub')
    (hpath : ∀ x ∈ p.documents, x.2.host.path = x.1) {documents : List DocumentSnapshot}
    (hall : ∀ s ∈ documents, ∃ path, p.snapshot? path = some s) :
    Gains w (some p) pub (scheduleOpen w pub' documents) := by
  rw [Publisher.scheduleOpen]
  induction documents generalizing pub' with
  | nil => exact h
  | cons s documents ih =>
      obtain ⟨⟨path, hs⟩, hall⟩ := List.forall_mem_cons.mp hall
      have hself : s.state.host.path = path := by
        obtain ⟨d, hd, rfl⟩ := Option.map_eq_some_iff.mp hs
        exact hpath _ (PathMap.mem_of_get? hd)
      rw [List.filter_cons, hself]
      by_cases hopen : w.isOpen path = true
      · rw [if_pos hopen, List.foldl_cons]
        exact ih (h.schedule hpath hs hopen) hall
      · rw [if_neg hopen]
        exact ih h hall

/-- What the publisher makes of an event. -/
theorem gains_note (pub : Publisher) (w : Workspace) {e : Event}
    (hpath : ∀ p, e.newer = some p → ∀ x ∈ p.documents, x.2.host.path = x.1) :
    Gains w e.newer pub (pub.note w e) := by
  have hself := Gains.refl w e.newer pub
  -- an event that lacks what it speaks of changes nothing
  obtain ⟨kind, q, document, older, newer, isClosing⟩ := e
  rw [note]
  by_cases hclosing : isClosing = true
  · rw [if_pos hclosing]
    exact hself
  · rw [if_neg hclosing]
    cases kind with
    | projectAdded | projectChanged =>
        cases newer with
        | none => exact hself
        | some p =>
            refine hself.scheduleOpen (hpath p rfl) ?_
            intro s hs
            obtain ⟨path, -, hs⟩ := List.mem_filterMap.mp hs
            exact ⟨path, hs⟩
    | projectRemoved => exact hself.forgetProject q
    | documentRemoved =>
        cases document with
        | none => exact hself
        | some path => exact hself.forget q path
    | documentAdded | documentChanged =>
        cases newer with
        | none => exact hself
        | some p =>
            cases document with
            | none => exact hself
            | some path =>
                dsimp only
                cases hs : p.snapshot? path with
                | none => exact hself
                | some s =>
                    obtain rfl : s.project = p := by
                      obtain ⟨d, -, rfl⟩ := Option.map_eq_some_iff.mp hs
                      rfl
                    have hall : ∀ t ∈ s.importers, ∃ q, s.project.snapshot? q = some t := by
                      intro t ht
                      obtain ⟨q, -, ht⟩ := List.mem_filterMap.mp ht
                      exact ⟨q, ht⟩
                    have himporters := hself.scheduleOpen (hpath _ rfl) hall
                    by_cases hopen : w.isOpen path = true
                    · dsimp only
                      rw [if_pos hopen]
                      exact himporters.schedule (hpath _ rfl) hs hopen
                    · dsimp only
                      rw [if_neg hopen]
                      exact himporters.forget q path

/-- A document that the changed project has and that is not open is forgotten. -/
theorem note_closed {q : Text} {older : Option ProjectState} (hs : p.snapshot? path = some s)
    (hclosed : ¬ w.isOpen path = true) :
    pub.note w ⟨.documentChanged, q, some path, older, some p, false⟩ =
      (scheduleOpen w pub s.importers).forget q path := by
  rw [note, if_neg Bool.false_ne_true]
  dsimp only
  rw [hs]
  dsimp only
  rw [if_neg hclosed]

end Publisher

/-! ## What is left of a document that is hidden -/

namespace Workspace

variable {w : Workspace} {pub : Publisher} {project path : Text} {c : Change}

namespace Tidy

/-- What the publisher makes of a change: work is added for documents that are there and open, and no copies
    are. -/
theorem gains_told (h : w.Tidy) (pub : Publisher) (project path : Text) (c : Change) :
    ((pub.told (w.apply c)).Awaits project path → pub.Awaits project path ∨
      (w.apply c).2.Shows project path) ∧
    ((pub.told (w.apply c)).hasPublished project path = true →
      pub.hasPublished project path = true) := by
  rw [Publisher.told]
  have htidy := (h.apply c).tidy
  cases he : (w.apply c).1 with
  | none => exact ⟨Or.inl, id⟩
  | some e =>
      have hgains := Publisher.gains_note pub (w.apply c).2 (e := e) fun p hp =>
        (htidy.project_tidy (newer_apply he hp)).1.path_eq
      refine ⟨fun hawaits => ?_, hgains.published project path⟩
      rcases hgains.awaits project path hawaits with hbefore | ⟨hopen, p, hp, hproject, hthere⟩
      · exact Or.inl hbefore
      · have hnow := newer_apply he hp
        rw [← (htidy.project_tidy hnow).2, hproject] at hnow
        exact Or.inr (shows_iff.mpr ⟨hopen, p, hnow, hthere⟩)

theorem told_removeDocument (h : w.Tidy) (hclosing : w.isClosing = false) {p : ProjectState}
    (hp : w.project? project = some p) (hthere : p.document? path ≠ none) :
    pub.told (w.apply (.removeDocument project path)) = pub.forget project path := by
  obtain ⟨p', m', -, hrun⟩ := (h.update_steps hclosing hp (.removeDocument path) .documentRemoved
    (some path) fun _ s => PathSet.remove s path).resolve_left fun hidle => hthere hidle.1
  exact congrArg pub.told hrun

/-- A document that is closed is still one of its project, so the publisher sees that it is not open. -/
theorem told_closeDocument (h : w.Tidy) (pub : Publisher) (hclosing : w.isClosing = false)
    {p : ProjectState} (hp : w.project? project = some p) (hthere : p.document? path ≠ none)
    (loader : Loader) :
    ∃ pub' : Publisher, pub.told (w.apply (.closeDocument project path loader)) =
      pub'.forget project path := by
  obtain ⟨p', m', hturns, hrun⟩ := (h.update_steps hclosing hp (.changeLoader path loader)
    .documentChanged (some path) fun _ s => PathSet.remove s path).resolve_left
    fun hidle => hthere hidle.1
  obtain ⟨d, hd⟩ := Option.ne_none_iff_exists'.mp (document?_turns hturns nofun hthere)
  have hsnapshot : p'.snapshot? path = some ⟨p', d⟩ := congrArg (Option.map _) hd
  rw [show w.apply (.closeDocument project path loader) = _ from hrun]
  refine ⟨_, Publisher.note_closed hsnapshot ?_⟩
  exact fun hopen => (PathSet.mem_remove.mp (isOpen_iff.mp hopen)).2 rfl

/-- What the client has of a document is forgotten when a change hides it without stranding it. -/
theorem isForgotten_apply (h : w.Tidy) (hclosing : w.isClosing = false) {c : Change}
    (hhides : c.Hides w project path) (hstrands : ¬ c.Strands w pub project path)
    (hshows : w.Shows project path) :
    ¬ (pub.told (w.apply c)).hasPublished project path = true := by
  obtain ⟨-, p, hp, hthere⟩ := shows_iff.mp hshows
  have hforgotten {pub' : Publisher} (htold : pub.told (w.apply c) = pub'.forget project path) :
      ¬ (pub.told (w.apply c)).hasPublished project path = true := by
    rw [htold, Publisher.hasPublished_forget]
    exact fun h => h.1 rfl
  -- When the document is hidden in another project, there is nothing to forget.
  have helsewhere {q : Text} (hq : q ≠ project)
      (hnone : ¬ (pub.Awaits project path ∨ q ≠ project ∧ pub.hasPublished project path = true)) :
      ¬ (pub.told (w.apply c)).hasPublished project path = true := by
    intro hpublished
    exact hnone (Or.inr ⟨hq, (h.gains_told pub project path c).2 hpublished⟩)
  cases c with
  | removeProject q =>
      obtain rfl : q = project := hhides
      have htold : pub.told (w.apply (.removeProject q)) = pub.forgetProject q := by
        rw [Workspace.apply, Workspace.removeProject, hp, hclosing]
        rfl
      rw [htold, Publisher.hasPublished_forgetProject]
      exact fun h => h.1 rfl
  | removeDocument q removed =>
      obtain ⟨rfl, hsome⟩ := hhides
      by_cases hq : q = project
      · subst hq
        exact hforgotten (h.told_removeDocument hclosing hp hthere)
      · exact helsewhere hq fun hany => hstrands ⟨rfl, hsome, hany⟩
  | closeDocument q closed loader =>
      obtain ⟨rfl, hsome⟩ := hhides
      by_cases hq : q = project
      · subst hq
        obtain ⟨pub', htold⟩ := h.told_closeDocument pub hclosing hp hthere loader
        exact hforgotten htold
      · exact helsewhere hq fun hany => hstrands ⟨rfl, hsome, hany⟩
  | openSolution | closeSolution | addProject _ | configureProject _ | discover _ _
  | addDocument _ _ _ | openDocument _ _ _ | changeText _ _ _ | changeLoader _ _ _ => exact hhides.elim

/-- If copies and work are there only for documents that are shown, a change that strands none keeps it so. -/
theorem shows_told (h : w.Tidy) (hclosing : w.isClosing = false)
    (hstrands : ¬ c.Strands w pub project path)
    (hawaits : pub.Awaits project path → w.Shows project path)
    (hpublished : pub.hasPublished project path = true → w.Shows project path) :
    ((pub.told (w.apply c)).Awaits project path → (w.apply c).2.Shows project path) ∧
      ((pub.told (w.apply c)).hasPublished project path = true →
        (w.apply c).2.Shows project path) := by
  obtain ⟨hwaits, hbefore⟩ := h.gains_told pub project path c
  constructor
  · intro hafter
    rcases hwaits hafter with hwaiting | hshows
    · refine h.shows_apply hclosing c ?_ (hawaits hwaiting)
      exact fun hhides => hstrands (hhides.strands hwaiting)
    · exact hshows
  · intro hafter
    have hshows := hpublished (hbefore hafter)
    refine h.shows_apply hclosing c ?_ hshows
    exact fun hhides => h.isForgotten_apply hclosing hhides hstrands hshows hafter

end Tidy

end Workspace

/-! ## What a window adds -/

/-- Requests for output never turn the memory back. -/
theorem DocumentSnapshot.next_le_output (s : DocumentSnapshot) (m : Memory) :
    m.next ≤ (s.output.run.run m).2.next := by
  cases ho : (m.findings s.state.serial).output with
  | none => exact (output_answered ho false).next_le
  | some o => exact Nat.le_of_eq (congrArg (·.2.next) (output_run_of_some ho false).symm)

namespace Publisher

/-- A piece of work brings at most copies of its own document. -/
theorem hasPublished_publish (pub : Publisher) (m : Memory) (s : DocumentSnapshot) (project path : Text) :
    m.next ≤ (publish (pub, m) s).1.2.next ∧
      ((publish (pub, m) s).1.1.hasPublished project path = true →
        pub.hasPublished project path = true ∨
          s.project.host.path = project ∧ s.state.host.path = path) := by
  have hle := s.next_le_output m
  cases hrun : s.output.run m with
  | mk r m' =>
      rw [show s.output.run.run m = (r, m') from hrun] at hle
      cases r with
      | error fault =>
          rw [publish_error hrun]
          exact ⟨hle, Or.inl⟩
      | ok o =>
          rw [publish_ok hrun]
          refine ⟨hle, ?_⟩
          intro hpublished
          rw [hasPublished, lookup_deliver] at hpublished
          by_cases hk : (project, path) = (s.project.host.path, s.state.host.path)
          · obtain ⟨rfl, rfl⟩ := Prod.mk.inj hk
            exact Or.inr ⟨rfl, rfl⟩
          · rw [if_neg hk] at hpublished
            exact Or.inl hpublished

theorem hasPublished_foldl (work : List (Text × DocumentSnapshot)) (state : Publisher × Memory)
    (project path : Text) :
    let state' := work.foldl (fun state x => (publish state x.2).1) state
    state.2.next ≤ state'.2.next ∧ (state'.1.hasPublished project path = true →
      state.1.hasPublished project path = true ∨
        ∃ x ∈ work, x.2.project.host.path = project ∧ x.2.state.host.path = path) := by
  induction work generalizing state with
  | nil => exact ⟨Nat.le_refl _, Or.inl⟩
  | cons x work ih =>
      obtain ⟨hle, hfirst⟩ := hasPublished_publish state.1 state.2 x.2 project path
      obtain ⟨hle', hrest⟩ := ih (publish state x.2).1
      refine ⟨Nat.le_trans hle hle', ?_⟩
      intro hpublished
      rcases hrest hpublished with hpublished | ⟨y, hy, hnames⟩
      · exact (hfirst hpublished).imp_right fun hnames => ⟨x, List.mem_cons_self, hnames⟩
      · exact Or.inr ⟨y, List.mem_cons_of_mem x hy, hnames⟩

end Publisher

/-! ## Runs -/

namespace Session

variable {s : Session Publisher} {project path : Text}

/-- The turn does not close the solution. -/
def Turn.StaysOpen : Turn → Prop
  | .change plan => ∀ v, plan v ≠ .closeSolution
  | .flush => True

/-- The turn is a change that strands a document. -/
def Strands (s : Session Publisher) (project path : Text) : Turn → Prop
  | .change plan => (plan ⟨s.workspace.memory.next⟩).Strands s.workspace s.knowledge project path
  | .flush => False

instance (s : Session Publisher) (project path : Text) : (t : Turn) → Decidable (s.Strands project path t)
  | .change plan => inferInstanceAs (Decidable (Change.Strands _ _ _ _ (plan _)))
  | .flush => inferInstanceAs (Decidable False)

/-- Some turn has stranded a document, which has not been shown since, given whether that is so before the
    turns. -/
def IsStranded (project path : Text) (s : Session Publisher) (before : Prop) : List Turn → Prop
  | [] => before
  | t :: turns => IsStranded project path (s.turn t)
      ((before ∨ s.Strands project path t) ∧ ¬ (s.turn t).workspace.Shows project path) turns

instance decidableIsStranded (project path : Text) (s : Session Publisher) (before : Prop)
    [Decidable before] : (turns : List Turn) → Decidable (IsStranded project path s before turns)
  | [] => inferInstanceAs (Decidable before)
  | t :: turns => decidableIsStranded project path (s.turn t)
      ((before ∨ s.Strands project path t) ∧ ¬ (s.turn t).workspace.Shows project path) turns

/-- The client has copies of a document, or work for it waits, only while the document is shown, unless it is
    stranded. -/
structure IsFrugal (s : Session Publisher) (project path : Text) (isStranded : Prop) : Prop where
  untold : s.untold = []
  isCancelled : s.knowledge.queue.isCancelled = false
  isClosing : s.workspace.isClosing = false
  tidy : s.workspace.Tidy
  awaits : s.knowledge.Awaits project path → s.workspace.Shows project path ∨ isStranded
  published : s.knowledge.hasPublished project path = true →
    s.workspace.Shows project path ∨ isStranded

theorem isFrugal_start (project path : Text) :
    ({ knowledge := {} } : Session Publisher).IsFrugal project path False where
  untold := rfl
  isCancelled := rfl
  isClosing := rfl
  tidy := Workspace.tidy_start
  awaits := fun h => absurd h (Publisher.not_awaits rfl)
  published := fun h => absurd h Bool.false_ne_true

/-- A document that is not stranded by a change, and was not before, is held only while it is shown. -/
theorem shows_or_stranded {isStranded strands shows holds : Prop}
    (h : ¬ isStranded → ¬ strands → holds → shows) (hholds : holds) :
    shows ∨ (isStranded ∨ strands) ∧ ¬ shows := by
  by_cases hshows : shows
  · exact Or.inl hshows
  · refine Or.inr ⟨?_, hshows⟩
    by_contra hnone
    obtain ⟨hstranded, hstrands⟩ := not_or.mp hnone
    exact hshows (h hstranded hstrands hholds)

theorem IsFrugal.change {isStranded : Prop} (hs : s.IsFrugal project path isStranded) {plan : Plan}
    (hopen : (Turn.change plan).StaysOpen) :
    (s.turn (.change plan)).IsFrugal project path
      ((isStranded ∨ s.Strands project path (.change plan)) ∧
        ¬ (s.turn (.change plan)).workspace.Shows project path) := by
  obtain ⟨told, hturn⟩ := change_observer Publisher.note hs.untold plan
  generalize hc : plan ⟨s.workspace.memory.next⟩ = c at hturn
  generalize hw : (s.workspace.act Memory.version).2 = w at hturn
  have hopen : c ≠ .closeSolution := hc ▸ hopen _
  have hnext : s.workspace.memory.Extends (s.workspace.act Memory.version).2.memory :=
    Memory.extends_next _
  have htidy : w.Tidy := hw ▸ (hs.tidy.goes_same hnext rfl).tidy
  have hclosing : w.isClosing = false := hw ▸ hs.isClosing
  have hshows (h : s.workspace.Shows project path) : w.Shows project path := hw ▸ ⟨h.there, h.isOpen⟩
  have hnone (hstrands : ¬ s.Strands project path (.change plan)) :
      ¬ c.Strands w s.knowledge project path := by
    rw [Change.strands_congr (w := s.workspace) (by rw [← hw]; exact fun _ => rfl), ← hc]
    exact hstrands
  have htold (hstranded : ¬ isStranded) (hstrands : ¬ s.Strands project path (.change plan)) :=
    htidy.shows_told hclosing (hnone hstrands)
      (fun h => hshows ((hs.awaits h).resolve_right hstranded))
      (fun h => hshows ((hs.published h).resolve_right hstranded))
  rw [turn, hturn]
  exact
    { untold := hs.untold
      isCancelled := by
        cases hevent : (w.apply c).1 with
        | none => exact hs.isCancelled
        | some e => exact (Publisher.isCancelled_note _ _ e).trans hs.isCancelled
      isClosing := Workspace.isClosing_apply hclosing hopen
      tidy := (htidy.apply c).tidy
      awaits := shows_or_stranded fun hstranded hstrands => (htold hstranded hstrands).1
      published := shows_or_stranded fun hstranded hstrands => (htold hstranded hstrands).2 }

theorem IsFrugal.flush {isStranded : Prop} (hs : s.IsFrugal project path isStranded) :
    (s.turn .flush).IsFrugal project path
      ((isStranded ∨ s.Strands project path .flush) ∧
        ¬ (s.turn .flush).workspace.Shows project path) := by
  obtain ⟨hle, hpublished⟩ := Publisher.hasPublished_foldl s.knowledge.queue.waiting
    (s.knowledge, s.workspace.memory) project path
  have hshows (h : s.workspace.Shows project path) (m : Memory) :
      ({ s.workspace with memory := m } : Workspace).Shows project path := ⟨h.there, h.isOpen⟩
  rw [turn, Publisher.flush_eq hs.isCancelled]
  exact
    { untold := hs.untold
      isCancelled := hs.isCancelled
      isClosing := hs.isClosing
      tidy := hs.tidy.of_projects hle hs.tidy.sorted fun _ he => Or.inl he
      awaits := fun h => absurd h (Publisher.not_awaits rfl)
      published := by
        refine shows_or_stranded fun hstranded _ hafter => ?_
        rcases hpublished hafter with hbefore | hwaiting
        · exact hshows ((hs.published hbefore).resolve_right hstranded) _
        · exact hshows ((hs.awaits hwaiting).resolve_right hstranded) _ }

theorem IsFrugal.turn {isStranded : Prop} (hs : s.IsFrugal project path isStranded) {t : Turn}
    (hopen : t.StaysOpen) :
    (s.turn t).IsFrugal project path ((isStranded ∨ s.Strands project path t) ∧
      ¬ (s.turn t).workspace.Shows project path) := by
  cases t with
  | change plan => exact hs.change hopen
  | flush => exact hs.flush

theorem IsFrugal.foldl {isStranded : Prop} (turns : List Turn)
    (hs : s.IsFrugal project path isStranded) (hopen : ∀ t ∈ turns, t.StaysOpen) :
    (turns.foldl Session.turn s).IsFrugal project path (IsStranded project path s isStranded turns) := by
  -- Along the turns; what strands a document depends on the session in which a turn is made.
  induction turns generalizing s isStranded with
  | nil => exact hs
  | cons t turns ih =>
      obtain ⟨ht, hopen⟩ := List.forall_mem_cons.mp hopen
      exact ih (hs.turn ht) hopen

/-- Unless a document has been stranded and not shown since, the client has copies of it, once all that waits
    has been published, only if it is a document of its project and open. -/
theorem shows_of_hasPublished {turns : List Turn} (hopen : ∀ t ∈ turns, t.StaysOpen)
    (hstranded : ¬ IsStranded project path { knowledge := {} } False turns)
    (hpublished : ((run turns).turn .flush).knowledge.hasPublished project path = true) :
    (∃ d, ((run turns).turn .flush).workspace.document? project path = some d) ∧
      ((run turns).turn .flush).workspace.isOpen path = true := by
  have hfrugal := ((isFrugal_start project path).foldl turns hopen).flush
  have hshows := (hfrugal.published hpublished).resolve_right fun h => hstranded (h.1.resolve_right id)
  exact ⟨hshows.there, hshows.isOpen⟩

/-! ## A page that is closed -/

/-- A page is opened, and closed before it has been published. -/
def pageClosed : List Turn :=
  [.change fun _ => .addProject { path := "/a" },
    .change fun v => .addDocument "/a" (.new "P.cshtml" "P.cshtml") (.known ⟨[], v⟩),
    .change fun _ => .openDocument "/a" "P.cshtml" "@x",
    .change fun v => .closeDocument "/a" "P.cshtml" (.known ⟨[], v⟩)]

/-- Then it is opened again. -/
def pageReopened : List Turn := pageClosed ++ [.change fun _ => .openDocument "/a" "P.cshtml" "@y"]

/-- The page that is opened again is published, and it is open. -/
theorem shows_of_hasPublished_reopened :
    (∀ t ∈ pageReopened, t.StaysOpen) ∧
      ¬ IsStranded "/a" "P.cshtml" { knowledge := {} } False pageReopened ∧
      ((run pageReopened).turn .flush).knowledge.hasPublished "/a" "P.cshtml" = true ∧
      (∃ d, ((run pageReopened).turn .flush).workspace.document? "/a" "P.cshtml" = some d) ∧
      ((run pageReopened).turn .flush).workspace.isOpen "P.cshtml" = true := by
  have hopen : ∀ t ∈ pageReopened, t.StaysOpen := by
    simp [pageReopened, pageClosed, Turn.StaysOpen]
  have hstranded : ¬ IsStranded "/a" "P.cshtml" { knowledge := {} } False pageReopened := by
    decide +kernel
  have hpublished : ((run pageReopened).turn .flush).knowledge.hasPublished "/a" "P.cshtml" = true := by
    decide +kernel
  exact ⟨hopen, hstranded, hpublished, shows_of_hasPublished hopen hstranded hpublished⟩

/-- The page that stays closed is published all the same. -/
theorem not_shows_of_hasPublished_closed :
    (∀ t ∈ pageClosed, t.StaysOpen) ∧
      ((run pageClosed).turn .flush).knowledge.hasPublished "/a" "P.cshtml" = true ∧
      ((run pageClosed).turn .flush).workspace.isOpen "P.cshtml" = false := by
  refine ⟨?_, by decide +kernel, by decide +kernel⟩
  simp [pageClosed, Turn.StaysOpen]

end Session

end RazorLang
