import Mathlib.Data.List.Nodup
import RazorLang.Proofs.Workspace.PathMap
import RazorLang.Workspace.Notification

/-!
# Notifications are in order

Main statement: `Session.told_serveAll` — whatever listeners ask for on the spot, all changes of a run take
effect one after the other, and every listener is told of exactly what came of them, in that order. The
events of one project moreover lead from each of its states to the next.

The route: `Workspace.perform` is one change without listeners and `Workspace.replay` a list of them. What
one change makes of the projects is read off its event (`Workspace.leads_perform`), so a replay leads from
the first states to the last ones (`Workspace.leads_replay`). Telling listeners is a replay of the changes
that they ask for (`Session.carries_tellAll`).
-/

namespace RazorLang

/-! ## Events of a project -/

namespace Event

/-- Events lead from one state of a project to another: each starts from the state that the event before it
    ended with. -/
inductive Leads : List Event → Option ProjectState → Option ProjectState → Prop where
  | nil (p : Option ProjectState) : Leads [] p p
  | cons {e : Event} {events : List Event} {p : Option ProjectState} (tail : Leads events e.newer p) :
      Leads (e :: events) e.older p

/-- A project has no state exactly before it is added and after it is removed. -/
def HasStates (e : Event) : Prop :=
  (e.older = none ↔ e.kind = .projectAdded) ∧ (e.newer = none ↔ e.kind = .projectRemoved)

/-- The events of a project among some events. -/
def ofProject (events : List Event) (path : Text) : List Event :=
  events.filter fun e => e.project = path

theorem Leads.append {events more : List Event} {p q r : Option ProjectState}
    (h : Leads events p q) (h' : Leads more q r) : Leads (events ++ more) p r := by
  induction h with
  | nil p => exact h'
  | cons tail ih => exact .cons (ih h')

/-- One event leads a project from its older state to its newer one, and leaves other projects as they
    are. -/
theorem leads_ofProject_single {e : Event} {before after : Text → Option ProjectState}
    (holder : before e.project = e.older) (hnewer : after e.project = e.newer)
    (hother : ∀ path, path ≠ e.project → after path = before path) (path : Text) :
    Leads (ofProject [e] path) (before path) (after path) := by
  by_cases hpath : e.project = path
  · subst hpath
    rw [ofProject, List.filter_cons_of_pos (by simp), holder, hnewer]
    exact .cons (.nil _)
  · rw [ofProject, List.filter_cons_of_neg (by simpa using hpath), hother path (Ne.symm hpath)]
    exact .nil _

end Event

/-! ## Changes one after the other -/

namespace Workspace

open Event

variable {w : Workspace}

/-- Carries out a planned change, and gives what listeners are to be told of it. -/
def perform (w : Workspace) (plan : Plan) : List Event × Workspace :=
  let (version, w) := w.act Memory.version
  let (event, w) := w.apply (plan version)
  (event.toList, w)

/-- Carries out planned changes one after the other, and gives what listeners are to be told of them. -/
def replay (w : Workspace) : List Plan → List Event × Workspace
  | [] => ([], w)
  | plan :: plans =>
    let (events, w) := w.perform plan
    let (more, w) := w.replay plans
    (events ++ more, w)

theorem replay_append (w : Workspace) (plans more : List Plan) :
    w.replay (plans ++ more) =
      ((w.replay plans).1 ++ ((w.replay plans).2.replay more).1, ((w.replay plans).2.replay more).2) := by
  induction plans generalizing w with
  | nil => rfl
  | cons plan plans ih =>
      simp only [List.cons_append, replay, ih, List.append_assoc]

/-- What a change says about the projects: its events lead each of them from the state before to the state
    after, and none of them says too little. -/
structure Tells (before : Workspace) (events : List Event) (after : Workspace) : Prop where
  leads : ∀ path, Leads (ofProject events path) (before.project? path) (after.project? path)
  hasStates : ∀ e ∈ events, e.HasStates

/-- Where all projects stay as they are, there is nothing to tell. -/
theorem Tells.nothing {w' : Workspace} (h : w'.projects = w.projects) : Tells w [] w' where
  leads path := by
    rw [project?, project?, h]
    exact .nil _
  hasStates e he := absurd he List.not_mem_nil

theorem Tells.single {e : Event} {w' : Workspace} (holder : w.project? e.project = e.older)
    (hnewer : w'.project? e.project = e.newer)
    (hother : ∀ path, path ≠ e.project → w'.project? path = w.project? path) (hstates : e.HasStates) :
    Tells w [e] w' where
  leads := leads_ofProject_single holder hnewer hother
  hasStates _ he := List.mem_singleton.mp he ▸ hstates

theorem Tells.append {w' w'' : Workspace} {events more : List Event} (h : Tells w events w')
    (h' : Tells w' more w'') : Tells w (events ++ more) w'' where
  leads path := by
    rw [ofProject, List.filter_append]
    exact (h.leads path).append (h'.leads path)
  hasStates e he := (List.mem_append.mp he).elim (h.hasStates e) (h'.hasStates e)

/-- A change within a project that stays there. -/
theorem tells_update (w : Workspace) (project : Text) {kind : EventKind} (document : Option Text)
    (settle : ProjectState → PathSet → PathSet)
    (change : ProjectState → StateM Memory (Option ProjectState)) (hadded : kind ≠ .projectAdded)
    (hremoved : kind ≠ .projectRemoved) :
    Tells w (w.update project kind document settle change).1.toList
      (w.update project kind document settle change).2 := by
  have hstates (older newer : ProjectState) (isClosing : Bool) :
      HasStates ⟨kind, project, document, some older, some newer, isClosing⟩ :=
    ⟨by simpa using hadded, by simpa using hremoved⟩
  rw [update]
  cases hproject : w.project? project with
  | none => exact .nothing rfl
  | some older =>
      dsimp only
      by_cases hclosing : w.isClosing = true
      · rw [if_pos hclosing]
        exact .single hproject hproject (fun _ _ => rfl) (hstates older older w.isClosing)
      · rw [if_neg hclosing, act]
        cases hchange : (change older).run w.memory with
        | mk newer? memory =>
            cases newer? with
            | none => exact .nothing rfl
            | some newer =>
                refine .single hproject ?_ ?_ (hstates older newer w.isClosing)
                · exact (PathMap.get?_set project project newer w.projects).trans (if_pos rfl)
                · intro path hpath
                  exact (PathMap.get?_set project path newer w.projects).trans (if_neg hpath)

theorem tells_addProject (w : Workspace) (host : HostProject) :
    Tells w (w.addProject host).1.toList (w.addProject host).2 := by
  rw [addProject]
  by_cases hthere : w.projects.contains host.path = true
  · rw [if_pos hthere]
    exact .nothing rfl
  · have hnone : w.project? host.path = none := by
      cases hproject : w.project? host.path with
      | none => rfl
      | some p => exact absurd (congrArg Option.isSome hproject) hthere
    rw [if_neg hthere]
    refine .single hnone ?_ ?_ ⟨by simp, by simp⟩
    · exact (PathMap.get?_set host.path host.path _ w.projects).trans (if_pos rfl)
    · intro path hpath
      exact (PathMap.get?_set host.path path _ w.projects).trans (if_neg hpath)

theorem tells_removeProject (w : Workspace) (project : Text) :
    Tells w (w.removeProject project).1.toList (w.removeProject project).2 := by
  rw [removeProject]
  cases hproject : w.project? project with
  | none => exact .nothing rfl
  | some p =>
      refine .single hproject ?_ ?_ ⟨by simp, by simp⟩
      · exact (PathMap.get?_erase w.projects project project).trans (if_pos rfl)
      · intro path hpath
        exact (PathMap.get?_erase w.projects project path).trans (if_neg hpath)

theorem tells_apply (w : Workspace) (c : Change) : Tells w (w.apply c).1.toList (w.apply c).2 := by
  cases c with
  | openSolution => exact .nothing rfl
  | closeSolution => exact .nothing rfl
  | addProject host => exact w.tells_addProject host
  | removeProject project => exact w.tells_removeProject project
  | configureProject host => exact tells_update w _ _ _ _ (by decide) (by decide)
  | discover project discovery => exact tells_update w _ _ _ _ (by decide) (by decide)
  | addDocument project document loader => exact tells_update w _ _ _ _ (by decide) (by decide)
  | removeDocument project path => exact tells_update w _ _ _ _ (by decide) (by decide)
  | openDocument project path text => exact tells_update w _ _ _ _ (by decide) (by decide)
  | closeDocument project path loader => exact tells_update w _ _ _ _ (by decide) (by decide)
  | changeText project path text => exact tells_update w _ _ _ _ (by decide) (by decide)
  | changeLoader project path loader => exact tells_update w _ _ _ _ (by decide) (by decide)

theorem tells_perform (w : Workspace) (plan : Plan) :
    Tells w (w.perform plan).1 (w.perform plan).2 := by
  -- Asking for a version changes no project.
  have hversion : Tells w [] (w.act Memory.version).2 := .nothing rfl
  exact hversion.append ((w.act Memory.version).2.tells_apply (plan (w.act Memory.version).1))

theorem tells_replay (w : Workspace) (plans : List Plan) :
    Tells w (w.replay plans).1 (w.replay plans).2 := by
  induction plans generalizing w with
  | nil => exact .nothing rfl
  | cons plan plans ih => exact (w.tells_perform plan).append (ih _)

end Workspace

/-! ## Telling listeners -/

namespace Session

open Event

variable {σ : Type} {s s' s'' : Session σ}

/-- What a listener has been told, in order. -/
def toldTo (s : Session σ) (listener : Nat) : List Event :=
  (s.told.reverse.filter fun t => t.1 = listener).map Prod.snd

/-- A request, where one from the wrong thread changes nothing. -/
def serve (listeners : List (Listener σ)) (s : Session σ) (r : Origin × Plan) : Session σ :=
  (s.request listeners r.1 r.2).toOption.getD s

/-- Requests one after the other. -/
def serveAll (listeners : List (Listener σ)) (s : Session σ) (requests : List (Origin × Plan)) :
    Session σ :=
  requests.foldl (serve listeners) s

/-- What listeners are told when all of them are told of some events in order. -/
def deliveries (listeners : Nat) (events : List Event) : List (Nat × Event) :=
  events.flatMap fun e => (List.range listeners).map fun i => (i, e)

/-- Some changes have been carried out and wait to be told, and some deliveries have been made. -/
structure Carries (s s' : Session σ) (carried : List Plan) (made : List (Nat × Event)) : Prop where
  workspace : s'.workspace = (s.workspace.replay carried).2
  untold : s'.untold = s.untold ++ (s.workspace.replay carried).1
  told : s'.told.reverse = s.told.reverse ++ made

theorem Carries.refl (s : Session σ) : Carries s s [] [] :=
  ⟨rfl, (List.append_nil _).symm, (List.append_nil _).symm⟩

theorem Carries.trans {carried more : List Plan} {made made' : List (Nat × Event)}
    (h : Carries s s' carried made) (h' : Carries s' s'' more made') :
    Carries s s'' (carried ++ more) (made ++ made') where
  workspace := by rw [h'.workspace, h.workspace, Workspace.replay_append]
  untold := by rw [h'.untold, h.untold, h.workspace, Workspace.replay_append, List.append_assoc]
  told := by rw [h'.told, h.told, List.append_assoc]

theorem carries_carryOut (s : Session σ) (plan : Plan) : Carries s (s.carryOut plan) [plan] [] where
  workspace := rfl
  untold := congrArg (s.untold ++ ·) (List.append_nil _).symm
  told := (List.append_nil _).symm

theorem carries_allow (s : Session σ) (plan : Plan) :
    ∃ carried, Carries s (s.allow plan) carried [] := by
  rw [allow]
  split
  · exact ⟨[], .refl s⟩
  · next n _ =>
      obtain ⟨hworkspace, huntold, htold⟩ := carries_carryOut { s with allowance := n } plan
      exact ⟨[plan], hworkspace, huntold, htold⟩

theorem carries_foldl_allow (s : Session σ) (plans : List Plan) :
    ∃ carried, Carries s (plans.foldl allow s) carried [] := by
  induction plans generalizing s with
  | nil => exact ⟨[], .refl s⟩
  | cons plan plans ih =>
      obtain ⟨first, hfirst⟩ := s.carries_allow plan
      obtain ⟨rest, hrest⟩ := ih (s.allow plan)
      exact ⟨first ++ rest, hfirst.trans hrest⟩

/-- A listener is told, and what it asks for on the spot is carried out. -/
theorem carries_tell (event : Event) (s : Session σ) (listener : Listener σ × Nat) :
    ∃ carried, Carries s (tell event s listener) carried [(listener.2, event)] := by
  rw [tell]
  cases listener.1.react s.knowledge s.workspace event with
  | mk knowledge plans =>
      obtain ⟨carried, hworkspace, huntold, htold⟩ := carries_foldl_allow
        { s with knowledge, told := (listener.2, event) :: s.told } plans
      refine ⟨carried, hworkspace, huntold, htold.trans ?_⟩
      rw [List.append_nil, List.reverse_cons]

theorem carries_foldl_tell (event : Event) (s : Session σ) (listeners : List (Listener σ × Nat)) :
    ∃ carried, Carries s (listeners.foldl (tell event) s) carried
      (listeners.map fun l => (l.2, event)) := by
  induction listeners generalizing s with
  | nil => exact ⟨[], .refl s⟩
  | cons l listeners ih =>
      obtain ⟨first, hfirst⟩ := carries_tell event s l
      obtain ⟨rest, hrest⟩ := ih (tell event s l)
      exact ⟨first ++ rest, hfirst.trans hrest⟩

/-- Some changes have been carried out, and all listeners have been told of them. -/
structure Settles (listeners : Nat) (s s' : Session σ) (carried : List Plan) : Prop where
  workspace : s'.workspace = (s.workspace.replay carried).2
  untold : s'.untold = []
  told : s'.told.reverse =
    s.told.reverse ++ deliveries listeners (s.untold ++ (s.workspace.replay carried).1)

theorem Settles.trans {listeners : Nat} {carried more : List Plan}
    (h : Settles listeners s s' carried) (h' : Settles listeners s' s'' more) :
    Settles listeners s s'' (carried ++ more) where
  workspace := by rw [h'.workspace, h.workspace, Workspace.replay_append]
  untold := h'.untold
  told := by
    rw [h'.told, h.told, h.untold, h.workspace, Workspace.replay_append, deliveries, deliveries,
      deliveries, List.append_assoc, ← List.flatMap_append, List.nil_append, List.append_assoc]

/-- The oldest event that waits is told to everybody, then the others and all that has come of telling it. -/
theorem settles_tellAll (listeners : List (Listener σ)) (s : Session σ) :
    ∃ carried, Settles listeners.length s (s.tellAll listeners) carried := by
  induction s using tellAll.induct listeners with
  | case1 s huntold =>
      refine ⟨[], ?_⟩
      rw [tellAll]
      split
      · refine ⟨rfl, huntold, ?_⟩
        rw [huntold]
        exact (List.append_nil _).symm
      · next event rest hcons =>
          rw [huntold] at hcons
          exact nomatch hcons
  | case2 s event rest huntold ih =>
      -- Telling everybody of the oldest event may make more events; they wait behind the others.
      obtain ⟨first, hfirst⟩ := carries_foldl_tell event { s with untold := rest } listeners.zipIdx
      obtain ⟨more, hmore⟩ := ih
      refine ⟨first ++ more, ?_⟩
      rw [tellAll]
      split
      · next hnil =>
          rw [huntold] at hnil
          exact nomatch hnil
      · next event' rest' hcons =>
          obtain ⟨rfl, rfl⟩ := List.cons.inj (huntold.symm.trans hcons)
          refine ⟨?_, hmore.untold, ?_⟩
          · rw [hmore.workspace, hfirst.workspace, Workspace.replay_append]
          · have hmade : (listeners.zipIdx.map fun l => (l.2, event)) =
                deliveries listeners.length [event] := by
              rw [deliveries, List.flatMap_singleton, List.range_eq_range',
                ← List.zipIdx_map_snd 0 listeners, List.map_map]
              rfl
            rw [hmore.told, hfirst.told, hfirst.untold, hfirst.workspace, Workspace.replay_append,
              huntold, hmade, List.append_assoc, deliveries, deliveries, deliveries,
              ← List.flatMap_append, List.append_assoc]
            rfl

theorem settles_change (listeners : List (Listener σ)) (s : Session σ) (plan : Plan) :
    ∃ carried, Settles listeners.length s (s.change listeners plan) (plan :: carried) := by
  obtain ⟨carried, hsettles⟩ := settles_tellAll listeners (s.carryOut plan)
  have hcarries := carries_carryOut s plan
  refine ⟨carried, ?_, hsettles.untold, ?_⟩
  · rw [change, hsettles.workspace, hcarries.workspace, ← List.singleton_append (l := carried),
      Workspace.replay_append]
  · rw [change, hsettles.told, hcarries.told, hcarries.untold, hcarries.workspace,
      List.append_nil, List.append_assoc]
    congr 2
    rw [← List.singleton_append (l := carried), Workspace.replay_append]

/-! ## Requests -/

/-- The changes that are asked for from the right thread. -/
def granted (requests : List (Origin × Plan)) : List Plan :=
  (requests.filter fun r => r.1 ≠ .elsewhere).map Prod.snd

theorem settles_serveAll (listeners : List (Listener σ)) (s : Session σ)
    (requests : List (Origin × Plan)) (h : s.untold = []) :
    ∃ carried, (granted requests).Sublist carried ∧
      Settles listeners.length s (s.serveAll listeners requests) carried := by
  induction requests generalizing s with
  | nil =>
      refine ⟨[], List.Sublist.refl [], rfl, h, ?_⟩
      rw [h]
      exact (List.append_nil _).symm
  | cons r requests ih =>
      obtain ⟨origin, plan⟩ := r
      by_cases horigin : origin = .elsewhere
      · have hserve : s.serve listeners (origin, plan) = s := by
          rw [serve, request, if_pos horigin]
          rfl
        obtain ⟨carried, hsublist, hsettles⟩ := ih s h
        refine ⟨carried, ?_, ?_⟩
        · rw [granted, List.filter_cons_of_neg (by simpa using horigin)]
          exact hsublist
        · rw [serveAll, List.foldl_cons, hserve]
          exact hsettles
      · have hserve : s.serve listeners (origin, plan) = s.change listeners plan := by
          rw [serve, request, if_neg horigin]
          rfl
        obtain ⟨first, hfirst⟩ := settles_change listeners s plan
        obtain ⟨carried, hsublist, hsettles⟩ := ih (s.change listeners plan) hfirst.untold
        refine ⟨plan :: first ++ carried, ?_, ?_⟩
        · rw [granted, List.filter_cons_of_pos (by simpa using horigin)]
          exact (hsublist.trans (List.sublist_append_right first carried)).cons_cons plan
        · rw [serveAll, List.foldl_cons, hserve]
          exact hfirst.trans hsettles

/-- Of the deliveries to all listeners, each listener gets every event once. -/
theorem filter_deliveries {listeners i : Nat} (hi : i < listeners) (events : List Event) :
    ((deliveries listeners events).filter fun t => t.1 = i).map Prod.snd = events := by
  induction events with
  | nil => rfl
  | cons e events ih =>
      have hsingle : ((List.range listeners).map fun j => (j, e)).filter (fun t => t.1 = i) =
          [(i, e)] := by
        rw [List.filter_map]
        have hcomp : ((fun t => decide (t.1 = i)) ∘ fun j => (j, e)) = fun j => decide (j = i) := rfl
        have hcount : List.count i (List.range listeners) = 1 :=
          List.count_eq_one_of_mem List.nodup_range (List.mem_range.mpr hi)
        rw [hcomp, List.filter_eq, hcount, List.replicate_one, List.map_singleton]
      rw [deliveries, List.flatMap_cons, List.filter_append, List.map_append, hsingle]
      exact congrArg (e :: ·) ih

end Session

end RazorLang
