import Mathlib.Data.List.Basic
import Mathlib.Data.List.Nodup
import RazorLang.Proofs.Workspace.Output
import RazorLang.Workspace.Publication

/-!
# What a publisher does

A publisher does two things. When it is told of an event it schedules documents, which only changes what waits
(`Publisher.foldl_schedule`), and may forget what the client has of a document. When a window closes it
publishes what waits, one document after the other (`Publisher.flush_eq`); a document that has an output is
delivered (`Publisher.deliver`), which sends those of its texts that the client does not have by their
versions (`Publisher.shown_deliver`).
-/

namespace RazorLang

namespace WorkQueue

variable {α σ : Type} {key : Text} {a : α} {waiting : List (Text × α)}

/-! ## Work that waits -/

theorem mem_keys_put {k : Text} :
    k ∈ (put key a waiting).map Prod.fst ↔ k = key ∨ k ∈ waiting.map Prod.fst := by
  induction waiting with
  | nil => simp [put]
  | cons e rest ih =>
      obtain ⟨p, b⟩ := e
      rw [put]
      by_cases hp : p = key
      · rw [if_pos hp, List.map_cons, List.map_cons, List.mem_cons, hp]
        exact ⟨Or.inr, fun h => h.elim Or.inl id⟩
      · rw [if_neg hp, List.map_cons, List.map_cons, List.mem_cons, List.mem_cons, ih]
        exact or_left_comm

theorem nodup_put (h : (waiting.map Prod.fst).Nodup) : ((put key a waiting).map Prod.fst).Nodup := by
  induction waiting with
  | nil => exact List.nodup_singleton key
  | cons e rest ih =>
      obtain ⟨p, b⟩ := e
      obtain ⟨hhead, htail⟩ := List.nodup_cons.mp h
      rw [put]
      by_cases hp : p = key
      · rw [if_pos hp]
        exact List.nodup_cons.mpr ⟨hhead, htail⟩
      · rw [if_neg hp]
        refine List.nodup_cons.mpr ⟨?_, ih htail⟩
        intro hmem
        exact (mem_keys_put.mp hmem).elim hp hhead

/-- Work under a key takes the place of the work that waits there. -/
theorem mem_put (h : (waiting.map Prod.fst).Nodup) {x : Text × α} :
    x ∈ put key a waiting ↔ x = (key, a) ∨ x ∈ waiting ∧ x.1 ≠ key := by
  induction waiting with
  | nil => simp [put]
  | cons e rest ih =>
      obtain ⟨p, b⟩ := e
      obtain ⟨hhead, htail⟩ := List.nodup_cons.mp h
      rw [put]
      by_cases hp : p = key
      · subst hp
        have hrest (hx : x ∈ rest) : x.1 ≠ p := by
          rintro rfl
          have hmem := List.mem_map_of_mem (f := Prod.fst) hx
          exact hhead hmem
        rw [if_pos rfl, List.mem_cons, List.mem_cons]
        constructor
        · rintro (rfl | hx)
          · exact Or.inl rfl
          · exact Or.inr ⟨Or.inr hx, hrest hx⟩
        · rintro (rfl | ⟨rfl | hx, hne⟩)
          · exact Or.inl rfl
          · exact absurd rfl hne
          · exact Or.inr hx
      · rw [if_neg hp, List.mem_cons, List.mem_cons, ih htail]
        constructor
        · rintro (rfl | hx | ⟨hx, hne⟩)
          · exact Or.inr ⟨Or.inl rfl, hp⟩
          · exact Or.inl hx
          · exact Or.inr ⟨Or.inr hx, hne⟩
        · rintro (hx | ⟨hx | hx, hne⟩)
          · exact Or.inr (Or.inl hx)
          · exact Or.inl hx
          · exact Or.inr (Or.inr ⟨hx, hne⟩)

/-- Work that adds nothing and calls nothing off is all done. -/
theorem perform_eq_foldl {process : σ → α → σ × WorkOutcome α}
    (hadded : ∀ s a, (process s a).2.added = []) (hcancels : ∀ s a, (process s a).2.cancels = false)
    {q : WorkQueue α} (hq : q.isCancelled = false) (work : List (Text × α)) (s : σ) :
    perform process work q s = (q, work.foldl (fun s x => (process s x.2).1) s) := by
  induction work generalizing s with
  | nil => rfl
  | cons x work ih =>
      have hafter : q.after (process s x.2).2 = q := by
        simp only [after, addAll, hadded, hcancels, List.foldl_nil, Bool.false_eq_true, if_false]
      rw [perform, hq, if_neg Bool.false_ne_true]
      dsimp only
      rw [hafter, ih, List.foldl_cons]

end WorkQueue

/-- The key of the work for a document. -/
def DocumentSnapshot.workKey (s : DocumentSnapshot) : Text :=
  s.project.host.path ++ "|" ++ s.state.host.path

/-- The key tells the project and the document if the bar is not in paths of projects. -/
theorem DocumentSnapshot.workKey_inj {s t : DocumentSnapshot} (hs : '|' ∉ s.project.host.path)
    (ht : '|' ∉ t.project.host.path) :
    s.workKey = t.workKey ↔
      s.project.host.path = t.project.host.path ∧ s.state.host.path = t.state.host.path := by
  have hkey (u : DocumentSnapshot) :
      u.workKey = u.project.host.path ++ '|' :: u.state.host.path := by
    rw [workKey, List.append_assoc]
    rfl
  have hproject {u : DocumentSnapshot} (hu : '|' ∉ u.project.host.path) :
      u.workKey.takeWhile (· != '|') = u.project.host.path := by
    rw [hkey, List.takeWhile_append_of_pos, List.takeWhile_cons_of_neg (by decide), List.append_nil]
    intro c hc
    exact bne_iff_ne.mpr fun heq => hu (heq ▸ hc)
  constructor
  · intro h
    have hpath : s.project.host.path = t.project.host.path := by
      rw [← hproject hs, ← hproject ht, h]
    rw [hkey, hkey, hpath] at h
    exact ⟨hpath, (List.cons.inj (List.append_cancel_left h)).2⟩
  · rintro ⟨hpath, hdocument⟩
    rw [hkey, hkey, hpath, hdocument]

/-- The versions of the generated texts. -/
def Output.versions (o : Output) : PublishedVersions := ⟨o.csharp, o.html⟩

/-- The version of a copy. -/
def PublishedVersions.version (v : PublishedVersions) : Language → Version
  | .csharp => v.csharp
  | .html => v.html

theorem Output.version_versions (o : Output) (language : Language) :
    o.versions.version language = o.version language := by
  cases language with
  | csharp => rfl
  | html => rfl

namespace Publisher

variable {p : Publisher} {s : DocumentSnapshot} {o : Output} {m m' : Memory} {w : Workspace}

/-! ## Scheduling -/

/-- Scheduled documents wait, and so does what has other keys. -/
theorem foldl_schedule (documents : List DocumentSnapshot)
    (hdocuments : ∀ s ∈ documents, ∀ t ∈ documents, s.workKey = t.workKey → s = t)
    (hkeys : (p.queue.waiting.map Prod.fst).Nodup) :
    ∃ waiting, documents.foldl schedule p = { p with queue := { p.queue with waiting } } ∧
      (waiting.map Prod.fst).Nodup ∧
      ∀ x, x ∈ waiting ↔ (∃ s ∈ documents, x = (s.workKey, s)) ∨
        x ∈ p.queue.waiting ∧ ∀ s ∈ documents, s.workKey ≠ x.1 := by
  induction documents generalizing p with
  | nil => exact ⟨p.queue.waiting, rfl, hkeys, by simp⟩
  | cons s documents ih =>
      obtain ⟨hself, hothers⟩ := List.forall_mem_cons.mp hdocuments
      obtain ⟨waiting, hfoldl, hkeys', hmem⟩ := @ih (p.schedule s)
        (fun t ht u hu => hothers t ht u (List.mem_cons_of_mem _ hu)) (WorkQueue.nodup_put hkeys)
      refine ⟨waiting, hfoldl, hkeys', ?_⟩
      intro x
      rw [hmem, show (p.schedule s).queue.waiting = WorkQueue.put s.workKey s p.queue.waiting from rfl,
        WorkQueue.mem_put hkeys, List.forall_mem_cons]
      constructor
      · rintro (⟨t, ht, hx⟩ | ⟨hx | ⟨hx, hne⟩, hall⟩)
        · exact Or.inl ⟨t, List.mem_cons_of_mem _ ht, hx⟩
        · exact Or.inl ⟨s, List.mem_cons_self, hx⟩
        · exact Or.inr ⟨hx, hne.symm, hall⟩
      · rintro (⟨t, ht, rfl⟩ | ⟨hx, hne, hall⟩)
        · rcases List.mem_cons.mp ht with rfl | ht
          · -- The document may be scheduled once more.
            by_cases hlater : ∃ u ∈ documents, u.workKey = t.workKey
            · obtain ⟨u, hu, hkey⟩ := hlater
              exact Or.inl ⟨u, hu, by rw [hself u (List.mem_cons_of_mem _ hu) hkey.symm]⟩
            · exact Or.inr ⟨Or.inl rfl, fun u hu hkey => hlater ⟨u, hu, hkey⟩⟩
          · exact Or.inl ⟨t, ht, rfl⟩
        · exact Or.inr ⟨Or.inr ⟨hx, hne.symm⟩, hall⟩

/-! ## Forgetting -/

/-- What is left of a list of pairs has the keys that are kept. -/
theorem lookup_filter {β : Type} (keep : Text × Text → Bool) (k : Text × Text)
    (l : List ((Text × Text) × β)) :
    (l.filter (keep ·.1)).lookup k = if keep k then l.lookup k else none := by
  induction l with
  | nil => rw [List.filter_nil, List.lookup_nil, ite_self]
  | cons e l ih =>
      obtain ⟨k', b⟩ := e
      rw [List.filter_cons, List.lookup_cons]
      by_cases hk : k = k'
      · subst hk
        by_cases hkeep : keep k = true
        · rw [if_pos hkeep, List.lookup_cons, beq_self_eq_true, if_pos hkeep]
        · rw [if_neg hkeep, ih, if_neg hkeep, if_neg hkeep]
      · rw [beq_eq_false_iff_ne.mpr hk]
        by_cases hkeep : keep k' = true
        · rw [if_pos hkeep, List.lookup_cons, beq_eq_false_iff_ne.mpr hk]
          exact ih
        · rw [if_neg hkeep]
          exact ih

theorem lookup_forget (p : Publisher) (project document : Text) (k : Text × Text) :
    (p.forget project document).published.lookup k =
      if k = (project, document) then none else p.published.lookup k := by
  rw [forget, lookup_filter (· != (project, document))]
  by_cases hk : k = (project, document)
  · rw [if_pos hk, hk, bne_self_eq_false, if_neg Bool.false_ne_true]
  · rw [if_neg hk, if_pos (bne_iff_ne.mpr hk)]

theorem lookup_forgetProject (p : Publisher) (project : Text) (k : Text × Text) :
    (p.forgetProject project).published.lookup k =
      if k.1 = project then none else p.published.lookup k := by
  rw [forgetProject, lookup_filter (·.1 != project)]
  by_cases hk : k.1 = project
  · rw [if_pos hk, hk, bne_self_eq_false, if_neg Bool.false_ne_true]
  · rw [if_neg hk, if_pos (bne_iff_ne.mpr hk)]

/-! ## Publishing -/

/-- The text that the client was sent last of a document. -/
def shown (p : Publisher) (language : Language) (project document : Text) : Option Text :=
  (p.sent.find? fun e => e.language = language ∧ e.project = project ∧ e.document = document).map
    Publication.text

/-- The client has the same copy of a document. -/
structure AgreesAt (p p' : Publisher) (project document : Text) : Prop where
  published : p'.published.lookup (project, document) = p.published.lookup (project, document)
  shown : ∀ language, p'.shown language project document = p.shown language project document

/-- Sends what the client does not have of an output. -/
def deliver (p : Publisher) (s : DocumentSnapshot) (o : Output) : Publisher :=
  let key := (s.project.host.path, s.state.host.path)
  { p with
    published := (key, o.versions) :: p.published.filter (·.1 != key)
    sent := (due s o (p.published.lookup key)).reverse ++ p.sent }

theorem publish_ok (h : s.output.run m = (.ok o, m')) :
    publish (p, m) s = ((p.deliver s o, m'), {}) := by
  rw [publish, h]
  rfl

theorem publish_error {fault : WorkspaceFault} (h : s.output.run m = (.error fault, m')) :
    publish (p, m) s = ((p, m'), { fails := true }) := by
  rw [publish, h]

theorem lookup_deliver (p : Publisher) (s : DocumentSnapshot) (o : Output) (k : Text × Text) :
    (p.deliver s o).published.lookup k =
      if k = (s.project.host.path, s.state.host.path) then some o.versions
      else p.published.lookup k := by
  rw [deliver, List.lookup_cons]
  by_cases hk : k = (s.project.host.path, s.state.host.path)
  · rw [if_pos hk, beq_iff_eq.mpr hk]
  · rw [if_neg hk, beq_eq_false_iff_ne.mpr hk]
    exact (lookup_filter (· != (s.project.host.path, s.state.host.path)) k _).trans
      (if_pos (bne_iff_ne.mpr hk))

/-- The client gets a text exactly if it does not have its version. -/
theorem shown_deliver (p : Publisher) (s : DocumentSnapshot) (o : Output) (language : Language) :
    (p.deliver s o).shown language s.project.host.path s.state.host.path =
      if (p.published.lookup (s.project.host.path, s.state.host.path)).all
          (·.version language != o.version language) then some (o.text language)
      else p.shown language s.project.host.path s.state.host.path := by
  generalize hhas : p.published.lookup (s.project.host.path, s.state.host.path) = has
  have hversion (v : PublishedVersions) : v.version .csharp = v.csharp ∧ v.version .html = v.html :=
    ⟨rfl, rfl⟩
  by_cases hcsharp : has.all (·.csharp != o.csharp) = true <;>
    by_cases hhtml : has.all (·.html != o.html) = true <;>
    cases language <;>
    simp [deliver, shown, due, hhas, hversion, Output.version, Output.text, hcsharp, hhtml]

theorem shown_deliver_of_ne (p : Publisher) (s : DocumentSnapshot) (o : Output) (language : Language)
    {project document : Text}
    (h : (project, document) ≠ (s.project.host.path, s.state.host.path)) :
    (p.deliver s o).shown language project document = p.shown language project document := by
  have hdue : (due s o (p.published.lookup (s.project.host.path, s.state.host.path))).reverse.find?
      (fun e => e.language = language ∧ e.project = project ∧ e.document = document) = none := by
    rw [List.find?_eq_none]
    intro e he
    obtain ⟨hproject, hdocument⟩ : e.project = s.project.host.path ∧ e.document = s.state.host.path := by
      rw [List.mem_reverse, due, List.mem_append, List.mem_ite_nil_right, List.mem_ite_nil_right,
        List.mem_singleton, List.mem_singleton] at he
      rcases he with ⟨-, rfl⟩ | ⟨-, rfl⟩
      · exact ⟨rfl, rfl⟩
      · exact ⟨rfl, rfl⟩
    intro hmatch
    obtain ⟨-, rfl, rfl⟩ := of_decide_eq_true hmatch
    exact h (by rw [hproject, hdocument])
  rw [shown, deliver, List.find?_append, hdue]
  rfl

theorem agreesAt_deliver (p : Publisher) (s : DocumentSnapshot) (o : Output) {project document : Text}
    (h : (project, document) ≠ (s.project.host.path, s.state.host.path)) :
    p.AgreesAt (p.deliver s o) project document :=
  ⟨(p.lookup_deliver s o _).trans (if_neg h), fun language => p.shown_deliver_of_ne s o language h⟩

/-- A window closes: everything that waits is published, in order. -/
theorem flush_eq (hq : p.queue.isCancelled = false) (w : Workspace) :
    p.flush w =
      let r := p.queue.waiting.foldl (fun state x => (publish state x.2).1) (p, w.memory)
      ({ r.1 with queue := { p.queue with waiting := [] } }, { w with memory := r.2 }) := by
  have houtcome (state : Publisher × Memory) (s : DocumentSnapshot) :
      (publish state s).2.added = [] ∧ (publish state s).2.cancels = false := by
    rw [publish]
    cases s.output.run state.2 with
    | mk r m =>
        cases r with
        | error fault => exact ⟨rfl, rfl⟩
        | ok o => exact ⟨rfl, rfl⟩
  have hperform := WorkQueue.perform_eq_foldl (fun state s => (houtcome state s).1)
    (fun state s => (houtcome state s).2) (q := { p.queue with waiting := [] }) hq p.queue.waiting
    (p, w.memory)
  rw [flush, WorkQueue.window, if_neg (by rw [hq]; exact Bool.false_ne_true), hperform]

theorem queue_flush (hq : p.queue.isCancelled = false) (w : Workspace) :
    (p.flush w).1.queue = { p.queue with waiting := [] } := by
  rw [flush_eq hq]

end Publisher

end RazorLang
