import RazorLang.Workspace.Basic

/-!
# Notifications

Listeners are told of every change, in the order in which they registered. A listener may make further
changes on the spot: they take effect at once, but are told of only when all listeners know the change
before, so that everybody hears of the changes in the order in which they happened.

The changes that listeners make are limited by an allowance, so telling ends.
-/

namespace RazorLang

/-- A change that is made with a version that nothing else has, for a text or a file that it brings. -/
abbrev Plan := Version → Change

/-- Somebody who is told of changes. What all listeners know together has type `σ`. -/
structure Listener (σ : Type) where
  /-- What the listener makes of an event, and the changes that it asks for on the spot. -/
  react : σ → Workspace → Event → σ × List Plan

namespace Listener

variable {σ : Type}

/-- A listener that only takes note. -/
def observer (note : σ → Workspace → Event → σ) : Listener σ := ⟨fun s w e => (note s w e, [])⟩

end Listener

/-- A workspace with the knowledge of its listeners, in the course of telling them. -/
structure Session (σ : Type) where
  workspace : Workspace := {}
  knowledge : σ
  /-- Events that have not been told yet. -/
  untold : List Event := []
  /-- What has been told: the number of the listener, and the event; the latest first. -/
  told : List (Nat × Event) := []
  /-- How many changes listeners may still make. -/
  allowance : Nat := 0

namespace Session

variable {σ : Type}

/-- Makes a planned change. -/
def carryOut (s : Session σ) (plan : Plan) : Session σ :=
  let (version, w) := s.workspace.act Memory.version
  let (event, w) := w.apply (plan version)
  { s with workspace := w, untold := s.untold ++ event.toList }

/-- Makes a change for a listener, if there is allowance for it. -/
def allow (s : Session σ) (plan : Plan) : Session σ :=
  match s.allowance with
  | 0 => s
  | n + 1 => { s with allowance := n }.carryOut plan

/-- Tells a listener of an event. -/
def tell (event : Event) (s : Session σ) (listener : Listener σ × Nat) : Session σ :=
  let (knowledge, plans) := listener.1.react s.knowledge s.workspace event
  plans.foldl allow { s with knowledge, told := (listener.2, event) :: s.told }

/-- Events to tell and changes to allow, which telling uses up. -/
def effort (s : Session σ) : Nat := s.allowance + s.untold.length

theorem effort_carryOut (s : Session σ) (plan : Plan) : (s.carryOut plan).effort ≤ s.effort + 1 := by
  simp only [carryOut, effort, List.length_append]
  have : (Option.toList ((s.workspace.act Memory.version).2.apply
      (plan (s.workspace.act Memory.version).1)).1).length ≤ 1 := by
    cases ((s.workspace.act Memory.version).2.apply (plan (s.workspace.act Memory.version).1)).1 <;> simp
  omega

theorem effort_allow (s : Session σ) (plan : Plan) : (s.allow plan).effort ≤ s.effort := by
  unfold allow
  split
  · exact Nat.le_refl _
  · next n h =>
    have := effort_carryOut { s with allowance := n } plan
    simp only [effort] at this ⊢
    omega

theorem effort_foldl_allow (plans : List Plan) (s : Session σ) :
    (plans.foldl allow s).effort ≤ s.effort := by
  induction plans generalizing s with
  | nil => exact Nat.le_refl _
  | cons plan rest ih => exact Nat.le_trans (ih _) (effort_allow s plan)

theorem effort_tell (event : Event) (s : Session σ) (listener : Listener σ × Nat) :
    (tell event s listener).effort ≤ s.effort :=
  effort_foldl_allow _ _

theorem effort_foldl_tell (event : Event) (listeners : List (Listener σ × Nat)) (s : Session σ) :
    (listeners.foldl (tell event) s).effort ≤ s.effort := by
  induction listeners generalizing s with
  | nil => exact Nat.le_refl _
  | cons l rest ih => exact Nat.le_trans (ih _) (effort_tell event s l)

/-- Tells all listeners of all events. -/
def tellAll (listeners : List (Listener σ)) (s : Session σ) : Session σ :=
  match _h : s.untold with
  | [] => s
  | event :: rest => tellAll listeners (listeners.zipIdx.foldl (tell event) { s with untold := rest })
termination_by s.effort
decreasing_by
  have := effort_foldl_tell event listeners.zipIdx { s with untold := rest }
  simp only [effort, _h, List.length_cons] at this ⊢
  omega

/-- Makes a planned change, and tells all listeners what comes of it. -/
def change (listeners : List (Listener σ)) (s : Session σ) (plan : Plan) : Session σ :=
  (s.carryOut plan).tellAll listeners

end Session

/-- The thread that a request comes from, if the workspace has a thread of its own for changes. -/
inductive Origin where
  /-- The workspace takes changes from everywhere. -/
  | anywhere
  /-- The thread for changes. -/
  | dispatcher
  /-- Another thread than the one for changes. -/
  | elsewhere
  deriving DecidableEq, Repr

/-- Makes a planned change, unless it comes from another thread than the one for changes. -/
def Session.request {σ : Type} (listeners : List (Listener σ)) (s : Session σ) (origin : Origin)
    (plan : Plan) : Except WorkspaceFault (Session σ) :=
  if origin = .elsewhere then
    .error (.wrongThread (plan (s.workspace.act Memory.version).1).operation)
  else .ok (s.change listeners plan)

end RazorLang
