import RazorLang.Proofs.Workspace.Permission

/-!
# The client ends up with the current outputs

Main statement: `Session.shown_eq_output` — whatever changes are made and whenever windows close in between,
once everything that waits has been published, the client has the current output of every open document that
has one. Each piece of work that is done keeps the invariant of a workspace with a publisher
(`History.Prompt.publish`), and so does each change that `Change.Permitted` allows.

Not every change is allowed: when an import is removed, the client keeps the pages that took it as they were
(`Session.shown_ne_output_importRemoved`).
-/

namespace RazorLang

namespace History

variable {h : History} {pub pub' : Publisher} {work : List (Text × DocumentSnapshot)}
  {x : Text × DocumentSnapshot} {m' : Memory} {o : Output}

namespace Prompt

/-! ## Closing a window -/

/-- A piece of work has been done. -/
theorem next (hp : h.Prompt pub (x :: work)) (hc : (h.withMemory m').Coherent)
    (hagrees : ∀ project path, (project, path) ≠ (x.2.project.host.path, x.2.state.host.path) →
      pub.AgreesAt pub' project path)
    (hcopied : ∀ project path, pub'.published.lookup (project, path) ≠ none →
      (h.withMemory m').Copied pub' project path)
    (hpublished : ∀ k, pub.published.lookup k ≠ none → pub'.published.lookup k ≠ none)
    (houtput : ∀ n, (h.memory.findings n).output ≠ none → (m'.findings n).output ≠ none)
    (hbaseline : ∀ n b, (m'.findings n).baseline = some b → (h.memory.findings n).baseline = some b)
    (hdone : (h.withMemory m').Covers pub' work x.2.project.host.path x.2.state.host.path x.2.state) :
    (h.withMemory m').Prompt pub' work where
  coherent := hc
  importsExactly := hp.importsExactly
  isClosing := hp.isClosing
  separated := hp.separated
  keys := (List.nodup_cons.mp hp.keys).2
  due y hy := by
    have hx := hp.due x List.mem_cons_self
    obtain ⟨hkey, hhas, hbar, hopen, hstatus⟩ := hp.due y (List.mem_cons_of_mem x hy)
    refine ⟨hkey, hhas, hbar, hopen, hstatus.imp_right fun hover => ?_⟩
    -- Other work is for another document.
    have hne : (y.2.project.host.path, y.2.state.host.path) ≠
        (x.2.project.host.path, x.2.state.host.path) := by
      intro heq
      obtain ⟨hproject, hpath⟩ := Prod.mk.inj heq
      have hsame : y.1 = x.1 := by
        rw [hkey, hx.key_eq, DocumentSnapshot.workKey, DocumentSnapshot.workKey, hproject, hpath]
      exact (List.nodup_cons.mp hp.keys).1 (hsame ▸ List.mem_map_of_mem hy)
    exact ⟨hover.absent, hover.gone, fun d hd hn => hover.baseline_ne d hd (hbaseline _ _ hn),
      (hagrees _ _ hne).published.trans hover.unpublished⟩
  published := hcopied
  covered project path d hd hopen := by
    rcases hp.covered project path d hd hopen with ⟨y, hy, rfl⟩ | ⟨hsome, hout⟩ | hfails
    · rcases List.mem_cons.mp hy with rfl | hy
      · obtain ⟨rfl, rfl⟩ := (hp.due y List.mem_cons_self).path_eq hp.coherent hd
        exact hdone
      · exact Or.inl ⟨y, hy, rfl⟩
    · exact Or.inr (Or.inl ⟨hpublished _ hsome, houtput _ hout⟩)
    · exact Or.inr (Or.inr hfails)

/-- A document has been delivered. -/
theorem deliver (hp : h.Prompt pub (x :: work)) (hc : (h.withMemory m').Coherent)
    (ho : (m'.findings x.2.state.serial).output = some o)
    (houtput : ∀ n, (h.memory.findings n).output ≠ none →
      (m'.findings n).output = (h.memory.findings n).output)
    (hbaseline : ∀ n b, (m'.findings n).baseline = some b → (h.memory.findings n).baseline = some b)
    (hother : ∀ project path d, h.Contains d → d ≠ x.2.state → h.Trails pub project path d →
      pub.AgreesAt (pub.deliver x.2 o) project path →
      (h.withMemory m').Trails (pub.deliver x.2 o) project path d)
    (hshown : ∀ language, (pub.deliver x.2 o).shown language x.2.project.host.path
      x.2.state.host.path = some (o.text language)) :
    (h.withMemory m').Prompt (pub.deliver x.2 o) work := by
  have hdue := hp.due x List.mem_cons_self
  have hlookup : (pub.deliver x.2 o).published.lookup (x.2.project.host.path, x.2.state.host.path) =
      some o.versions := (pub.lookup_deliver x.2 o _).trans (if_pos rfl)
  refine hp.next hc (fun _ _ hkey => pub.agreesAt_deliver x.2 o hkey) ?_ ?_ ?_ hbaseline ?_
  · intro project path hsome
    by_cases hkey : (project, path) = (x.2.project.host.path, x.2.state.host.path)
    · obtain ⟨rfl, rfl⟩ := Prod.mk.inj hkey
      have hdelivered : (h.withMemory m').Delivered (pub.deliver x.2 o) x.2.project.host.path
          x.2.state.host.path x.2 o := ⟨hdue.has, ho, hlookup, hshown⟩
      exact ⟨⟨_, _, hdelivered⟩, fun d hd =>
        ⟨_, _, hdelivered, Or.inl (hdue.state_eq hp.coherent hd)⟩⟩
    · have hagrees := pub.agreesAt_deliver x.2 o hkey
      rw [hagrees.published] at hsome
      obtain ⟨⟨t, o', hdelivered⟩, htrails⟩ := hp.published project path hsome
      refine ⟨⟨t, o', hdelivered.carry hdelivered.has ?_ hagrees⟩, ?_⟩
      · exact houtput _ (hdelivered.output ▸ Option.some_ne_none o')
      · intro d hd
        replace hd : h.IsCurrent project path d := hd
        refine hother project path d (hd.contains hp.coherent) ?_ (htrails d hd) hagrees
        rintro rfl
        obtain ⟨rfl, rfl⟩ := hdue.path_eq hp.coherent hd
        exact hkey rfl
  · intro k hsome
    rw [Publisher.lookup_deliver]
    split
    · exact Option.some_ne_none _
    · exact hsome
  · intro n hn
    rw [houtput n hn]
    exact hn
  · refine Or.inr (Or.inl ⟨?_, ?_⟩)
    · rw [hlookup]
      exact Option.some_ne_none _
    · rw [show ((h.withMemory m').memory.findings x.2.state.serial).output = some o from ho]
      exact Option.some_ne_none _

/-- A document cannot be compiled, and is left as it is. -/
theorem leave (hp : h.Prompt pub (x :: work)) (hc : (h.withMemory m').Coherent)
    (hlearn : Memory.Learns h.Contains (· = x.2.state.serial) h.memory m')
    (hfails : ∀ c, x.2.compiled ≠ .ok c) : (h.withMemory m').Prompt pub work := by
  refine hp.next hc (fun _ _ _ => ⟨rfl, fun _ => rfl⟩) ?_ (fun _ h => h) ?_ ?_
    (Or.inr (Or.inr ?_))
  · intro project path hsome
    obtain ⟨⟨t, o, hdelivered⟩, htrails⟩ := hp.published project path hsome
    refine ⟨⟨t, o, hdelivered.carry hdelivered.has (hlearn.output_eq _) ⟨rfl, fun _ => rfl⟩⟩, ?_⟩
    intro d hd
    exact (htrails d hd).learn hp.coherent hlearn
  · exact fun n hn hnone => hn ((hlearn.output_eq n).symm.trans hnone)
  · exact fun n b hn => (hlearn.baseline_eq n).symm.trans hn
  · intro s hs heq c hcompiled
    have hhas := (hp.due x List.mem_cons_self).has
    rw [(hp.coherent.agree x.2 s hhas hs heq.symm).compiled_eq] at hcompiled
    exact hfails c hcompiled

/-- The first piece of work trails the copy of its document, if there is one. -/
theorem trails_of_due (hp : h.Prompt pub (x :: work))
    (hsome : pub.published.lookup (x.2.project.host.path, x.2.state.host.path) ≠ none) :
    h.Trails pub x.2.project.host.path x.2.state.host.path x.2.state := by
  rcases (hp.due x List.mem_cons_self).status with hcurrent | hover
  · exact (hp.published _ _ hsome).trails _ hcurrent
  · exact absurd hover.unpublished hsome

/-- The output of the first piece of work is there, and is delivered. -/
theorem publish_known (hp : h.Prompt pub (x :: work))
    (ho : (h.memory.findings x.2.state.serial).output = some o) :
    (h.withMemory (Publisher.publish (pub, h.memory) x.2).1.2).Prompt
      (Publisher.publish (pub, h.memory) x.2).1.1 work := by
  rw [Publisher.publish_ok (DocumentSnapshot.output_run_of_some ho false)]
  refine hp.deliver hp.coherent ho (fun _ _ => rfl) (fun _ _ h => h)
    (fun _ _ _ _ _ htrails => htrails.mono) ?_
  refine shown_deliver hp.trails_of_due ?_
  -- A state that supersedes a copy has no output yet, so the copy is one of this state.
  rintro t o' hdelivered (heq | hsup) language -
  · rw [← heq, hdelivered.output] at ho
    rw [Option.some.inj ho]
  · exact absurd (hsup.output.symm.trans ho).symm (Option.some_ne_none o)

/-- The first piece of work is done. -/
theorem publish (hp : h.Prompt pub (x :: work)) :
    (h.withMemory (Publisher.publish (pub, h.memory) x.2).1.2).Prompt
      (Publisher.publish (pub, h.memory) x.2).1.1 work := by
  have hc := hp.coherent
  have hdue := hp.due x List.mem_cons_self
  have hhas := hdue.has
  cases ho : (h.memory.findings x.2.state.serial).output with
  | some o => exact hp.publish_known ho
  | none =>
      obtain ⟨m', r, m'', hrun, hlearn, -, hloaded, houtcome⟩ :=
        DocumentSnapshot.output_run hhas.contains hc.truthful ho false
      -- First texts are loaded, then the output is settled: the invariant is kept by both.
      have hc' := hc.learn hhas hlearn hloaded
      have hrequest := (hc.output_request hhas false).2
      rw [Workspace.attempt, Workspace.act, hrun] at hrequest
      cases hr : r with
      | error fault =>
          rw [hr] at hrun houtcome hrequest
          rw [Publisher.publish_error hrun]
          cases houtcome with
          | fails hfails =>
              refine hp.leave hrequest hlearn ?_
              rw [hfails rfl]
              rintro c ⟨⟩
      | ok o =>
          rw [hr] at hrun houtcome hrequest
          rw [Publisher.publish_ok hrun]
          obtain ⟨hle, hfindings⟩ := houtcome.memory
          have hnone : ((h.withMemory m').memory.findings x.2.state.serial).output = none :=
            (hlearn.output_eq _).trans ho
          refine hp.deliver hrequest (congrArg Findings.output (if_pos rfl)) ?_ ?_ ?_ ?_
          · intro n hn
            show ((m''.keep x.2.state.serial o).findings n).output = _
            have hne : n ≠ x.2.state.serial := fun heq => hn (heq ▸ ho)
            rw [Memory.findings_keep, hfindings, if_neg hne]
            exact hlearn.output_eq n
          · intro n b hn
            change ((m''.keep x.2.state.serial o).findings n).baseline = some b at hn
            rw [Memory.findings_keep, hfindings] at hn
            split at hn
            · exact absurd hn.symm (Option.some_ne_none b)
            · exact (hlearn.baseline_eq n).symm.trans hn
          · intro project path d hd hne htrails hagrees
            refine (htrails.learn hc hlearn).keep hc' hd ⟨_, hhas⟩ hne ?_ hnone hle hfindings o hagrees
            exact fun hn => hdue.baseline_ne hc hd ((hlearn.baseline_eq _).symm.trans hn)
          · refine shown_deliver (h := h.withMemory m') (fun hsome => (hp.trails_of_due hsome).learn hc hlearn) ?_
            rintro t o' hdelivered (heq | hsup) language hversion
            · rw [← heq, hdelivered.output] at hnone
              exact absurd hnone (Option.some_ne_none o')
            · exact hsup.text_eq hc' hhas hloaded hdelivered houtcome hversion

/-- All the work is done, one piece after the other. -/
theorem foldl (work : List (Text × DocumentSnapshot)) (hp : h.Prompt pub work) :
    let r := work.foldl (fun state x => (Publisher.publish state x.2).1) (pub, h.memory)
    (h.withMemory r.2).Prompt r.1 [] := by
  induction work generalizing h pub with
  | nil => exact hp
  | cons x work ih => exact ih hp.publish

/-- Where no work is left, the invariant does not look at the queue. -/
theorem requeue (hp : h.Prompt pub []) (queue : WorkQueue DocumentSnapshot) :
    h.Prompt { pub with queue } [] :=
  { hp with
    due := fun _ hx => absurd hx List.not_mem_nil
    published := by
      intro project path hsome
      obtain ⟨⟨t, o, hdelivered⟩, htrails⟩ := hp.published project path hsome
      exact ⟨⟨t, o, hdelivered.carry hdelivered.has rfl ⟨rfl, fun _ => rfl⟩⟩,
        fun d hd => (htrails d hd).mono ⟨rfl, fun _ => rfl⟩⟩
    covered := hp.covered }

/-- A window closes. -/
theorem flush (hp : h.Prompt pub pub.queue.waiting) (hq : pub.queue.isCancelled = false) :
    (h.withMemory (pub.flush h.workspace).2.memory).Prompt (pub.flush h.workspace).1 [] := by
  rw [Publisher.flush_eq hq]
  exact (foldl _ hp).requeue _

/-- Once no work is left, the client has the current outputs. -/
theorem shown_eq (hp : h.Prompt pub []) {project path : Text} {s : DocumentSnapshot}
    (hs : h.workspace.document? project path = some s) (hopen : h.workspace.isOpen path = true)
    (ho : (h.workspace.attempt s.output).1 = .ok o) (language : Language) :
    pub.shown language project path = some (o.text language) := by
  have hc := hp.coherent
  obtain ⟨p, hproject, hsnapshot⟩ := Option.bind_eq_some_iff.mp hs
  have hmem := PathMap.mem_of_get? hproject
  have hvalid := hc.valid p (hc.current _ hmem).1
  obtain ⟨rfl, hd⟩ := hvalid.snapshot?_eq_some.mp hsnapshot
  have hhas : h.Has s := ⟨(hc.current _ hmem).1, List.mem_map_of_mem hd⟩
  have hcurrent : h.IsCurrent project path s.state := ⟨s.project, hmem, hd⟩
  rcases hp.covered project path s.state hcurrent hopen with ⟨x, hx, -⟩ | ⟨hsome, hout⟩ | hfails
  · exact absurd hx List.not_mem_nil
  · obtain ⟨o', ho'⟩ := Option.ne_none_iff_exists'.mp hout
    obtain ⟨t, u, hdelivered, hstate⟩ := (hp.published project path hsome).trails _ hcurrent
    rcases hstate with heq | hsup
    · have hu : (h.memory.findings s.state.serial).output = some u := heq ▸ hdelivered.output
      rw [Workspace.attempt, Workspace.act, DocumentSnapshot.output_run_of_some hu false] at ho
      obtain rfl : u = o := Except.ok.inj ho
      exact hdelivered.shown language
    · exact absurd hsup.output hout
  · exact absurd ((hc.output_request hhas false).1 o ho) (hfails s hhas rfl _)

end Prompt

end History

/-! ## Workspaces with a publisher -/

namespace Session

/-- What happens to a workspace with a publisher: a change is made, or a window closes. -/
inductive Turn where
  | change (plan : Plan)
  | flush

/-- The workspace and its publisher after something has happened. -/
def turn (s : Session Publisher) : Turn → Session Publisher
  | .change plan => s.change [.observer Publisher.note] plan
  | .flush =>
    let (knowledge, workspace) := s.knowledge.flush s.workspace
    { s with knowledge, workspace }

/-- A change brings a loader only with the version that is handed out for the change. -/
def Turn.IsFresh : Turn → Prop
  | .change plan => ∀ v, (plan v).BringsAt v
  | .flush => True

/-- A permitted change after which all projects find their imports exactly. -/
def Permits (s : Session Publisher) : Turn → Prop
  | .change plan => (plan ⟨s.workspace.memory.next⟩).Permitted s.workspace s.knowledge.queue.waiting ∧
    ∀ p ∈ (s.turn (.change plan)).workspace.projects.values, p.ImportsExactly
  | .flush => True

instance decidablePermits (s : Session Publisher) : (t : Turn) → Decidable (s.Permits t)
  | .change plan => inferInstanceAs (Decidable
      ((plan ⟨s.workspace.memory.next⟩).Permitted s.workspace s.knowledge.queue.waiting ∧
        ∀ p ∈ (s.turn (.change plan)).workspace.projects.values, p.ImportsExactly))
  | .flush => inferInstanceAs (Decidable True)

/-- All changes are permitted when they are made. -/
def PermitsAll (s : Session Publisher) : List Turn → Prop
  | [] => True
  | t :: turns => s.Permits t ∧ (s.turn t).PermitsAll turns

instance decidablePermitsAll : (s : Session Publisher) → (turns : List Turn) →
    Decidable (s.PermitsAll turns)
  | _, [] => inferInstanceAs (Decidable True)
  | s, t :: turns =>
    have := decidablePermitsAll (s.turn t) turns
    inferInstanceAs (Decidable (s.Permits t ∧ (s.turn t).PermitsAll turns))

/-- What has happened to a new workspace. -/
def run (turns : List Turn) : Session Publisher := turns.foldl turn { knowledge := {} }

/-- Nothing that is due is forgotten. -/
structure IsPrompt (s : Session Publisher) : Prop where
  untold : s.untold = []
  isCancelled : s.knowledge.queue.isCancelled = false
  prompt : ∃ states, History.Prompt ⟨s.workspace, states⟩ s.knowledge s.knowledge.queue.waiting

variable {σ : Type} {s : Session Publisher} {turns : List Turn}

/-- Where nothing is untold, there is nothing to do. -/
theorem tellAll_nil (listeners : List (Listener σ)) {s : Session σ} (hs : s.untold = []) :
    s.tellAll listeners = s := by
  rw [tellAll]
  split
  · rfl
  · next h =>
    rw [hs] at h
    exact absurd h.symm (List.cons_ne_nil _ _)

/-- An observer is told what came of a change, and asks for nothing. -/
theorem change_observer (note : σ → Workspace → Event → σ) {s : Session σ} (hs : s.untold = [])
    (plan : Plan) :
    let r := (s.workspace.act Memory.version).2.apply (plan ⟨s.workspace.memory.next⟩)
    ∃ told, s.change [.observer note] plan =
      { s with workspace := r.2, knowledge := r.1.elim s.knowledge (note s.knowledge r.2), told } := by
  intro r
  have hcarry : s.carryOut plan = { s with workspace := r.2, untold := r.1.toList } := by
    rw [carryOut, hs]
    rfl
  rw [change, hcarry]
  cases hevent : r.1 with
  | none =>
      refine ⟨s.told, ?_⟩
      rw [tellAll_nil _ rfl, Option.toList_none, ← hs]
      rfl
  | some e =>
      refine ⟨(0, e) :: s.told, ?_⟩
      rw [tellAll]
      exact (tellAll_nil _ rfl).trans (by rw [← hs]; rfl)

theorem isPrompt_start : ({ knowledge := {} } : Session Publisher).IsPrompt :=
  ⟨rfl, rfl, [], History.prompt_start⟩

theorem IsPrompt.change (hs : s.IsPrompt) {plan : Plan} (hfresh : ∀ v, (plan v).BringsAt v)
    (hpermits : s.Permits (.change plan)) : (s.turn (.change plan)).IsPrompt := by
  obtain ⟨states, hprompt⟩ := hs.prompt
  obtain ⟨told, hturn⟩ := change_observer Publisher.note hs.untold plan
  obtain ⟨hpermitted, hexact⟩ := hpermits
  rw [turn, hturn] at hexact ⊢
  have hnext : ∃ states', History.Prompt ⟨_, states'⟩ _ _ := ⟨_, hprompt.apply
    (m := (s.workspace.act Memory.version).2.memory) (Memory.extends_next _) (Nat.lt_succ_self _)
    (hfresh _) hpermitted fun p hp =>
      (List.mem_append.mp hp).elim (hexact p) (hprompt.importsExactly p)⟩
  refine ⟨hs.untold, ?_, hnext⟩
  cases hevent : ((s.workspace.act Memory.version).2.apply (plan ⟨s.workspace.memory.next⟩)).1 with
  | none => exact hs.isCancelled
  | some e => exact (Publisher.isCancelled_note _ _ e).trans hs.isCancelled

theorem IsPrompt.flush (hs : s.IsPrompt) : (s.turn .flush).IsPrompt := by
  obtain ⟨states, hprompt⟩ := hs.prompt
  have hqueue := Publisher.queue_flush hs.isCancelled s.workspace
  refine ⟨hs.untold, ?_, states, ?_⟩
  · exact (congrArg WorkQueue.isCancelled hqueue).trans hs.isCancelled
  · have hwaiting : (s.turn .flush).knowledge.queue.waiting = [] := congrArg WorkQueue.waiting hqueue
    rw [hwaiting]
    exact hprompt.flush hs.isCancelled

theorem IsPrompt.turn (hs : s.IsPrompt) {t : Turn} (hfresh : t.IsFresh) (hpermits : s.Permits t) :
    (s.turn t).IsPrompt := by
  cases t with
  | change plan => exact hs.change hfresh hpermits
  | flush => exact hs.flush

theorem IsPrompt.foldl (turns : List Turn) (hs : s.IsPrompt) (hfresh : ∀ t ∈ turns, t.IsFresh)
    (hpermits : s.PermitsAll turns) : (turns.foldl Session.turn s).IsPrompt := by
  -- Along the turns; what is permitted depends on the session in which a turn is made.
  induction turns generalizing s with
  | nil => exact hs
  | cons t turns ih =>
      obtain ⟨ht, hfresh⟩ := List.forall_mem_cons.mp hfresh
      exact ih (hs.turn ht hpermits.1) hfresh hpermits.2

/-- Once all that waits has been published, the client has the current outputs of the open documents. -/
theorem shown_eq_output (hfresh : ∀ t ∈ turns, t.IsFresh)
    (hpermits : ({ knowledge := {} } : Session Publisher).PermitsAll turns) {project path : Text}
    {d : DocumentSnapshot} {o : Output}
    (hd : ((run turns).turn .flush).workspace.document? project path = some d)
    (hopen : ((run turns).turn .flush).workspace.isOpen path = true)
    (ho : (((run turns).turn .flush).workspace.attempt d.output).1 = .ok o) (language : Language) :
    ((run turns).turn .flush).knowledge.shown language project path = some (o.text language) := by
  have hprompt := isPrompt_start.foldl turns hfresh hpermits
  obtain ⟨states, hflushed⟩ := hprompt.prompt
  exact (hflushed.flush hprompt.isCancelled).shown_eq hd hopen ho language

/-! ## A page with an import -/

/-- A page with an import is opened and published. -/
def pagePublished : List Turn :=
  [.change fun _ => .addProject { path := "/a" },
    .change fun v => .addDocument "/a" (.new "_ViewImports.cshtml" "_ViewImports.cshtml")
      (.known ⟨"@using A", v⟩),
    .change fun v => .addDocument "/a" (.new "P.cshtml" "P.cshtml") (.known ⟨[], v⟩),
    .change fun _ => .openDocument "/a" "P.cshtml" "@x",
    .flush]

/-- Then the text of the import becomes another one. -/
def importChanged : List Turn :=
  pagePublished ++ [.change fun _ => .changeText "/a" "_ViewImports.cshtml" "@using B"]

/-- Or the import is removed. -/
def importRemoved : List Turn :=
  pagePublished ++ [.change fun _ => .removeDocument "/a" "_ViewImports.cshtml"]

/-- The output of the page, if it is open, and the C# that the client has. -/
def pageCopy (turns : List Turn) : Option (Output × Option Text) := do
  let s := (run turns).turn .flush
  let d ← s.workspace.document? "/a" "P.cshtml"
  let o ← (s.workspace.attempt d.output).1.toOption
  if s.workspace.isOpen "P.cshtml" then some (o, s.knowledge.shown .csharp "/a" "P.cshtml") else none

theorem pageCopy_eq_some {turns : List Turn} {o : Output} {copy : Option Text}
    (h : pageCopy turns = some (o, copy)) :
    ∃ d, ((run turns).turn .flush).workspace.document? "/a" "P.cshtml" = some d ∧
      ((run turns).turn .flush).workspace.isOpen "P.cshtml" = true ∧
      (((run turns).turn .flush).workspace.attempt d.output).1 = .ok o ∧
      ((run turns).turn .flush).knowledge.shown .csharp "/a" "P.cshtml" = copy := by
  obtain ⟨d, hd, h⟩ := Option.bind_eq_some_iff.mp h
  obtain ⟨o', ho, h⟩ := Option.bind_eq_some_iff.mp h
  obtain ⟨hopen, h⟩ := Option.ite_none_right_eq_some.mp h
  obtain ⟨rfl, rfl⟩ := Prod.mk.inj (Option.some.inj h)
  exact ⟨d, hd, hopen, eq_ok_of_toOption ho, rfl⟩

/-- The client gets the page with the new text of its import. -/
theorem shown_eq_output_importChanged :
    ∃ d o, ((run importChanged).turn .flush).workspace.document? "/a" "P.cshtml" = some d ∧
      ((run importChanged).turn .flush).workspace.isOpen "P.cshtml" = true ∧
      (((run importChanged).turn .flush).workspace.attempt d.output).1 = .ok o ∧
      ∀ language, ((run importChanged).turn .flush).knowledge.shown language "/a" "P.cshtml" =
        some (o.text language) := by
  have hsome : (pageCopy importChanged).isSome = true := by decide +kernel
  obtain ⟨⟨o, copy⟩, hcopy⟩ := Option.isSome_iff_exists.mp hsome
  obtain ⟨d, hd, hopen, ho, -⟩ := pageCopy_eq_some hcopy
  have hfresh : ∀ t ∈ importChanged, t.IsFresh := by
    simp [importChanged, pagePublished, Turn.IsFresh, Change.BringsAt, Loader.Gives]
  have hpermits : ({ knowledge := {} } : Session Publisher).PermitsAll importChanged := by
    decide +kernel
  exact ⟨d, o, hd, hopen, ho, shown_eq_output hfresh hpermits hd hopen ho⟩

/-- When the import is removed, the client keeps the page as it was with the import. -/
theorem shown_ne_output_importRemoved :
    ∃ d o, ((run importRemoved).turn .flush).workspace.document? "/a" "P.cshtml" = some d ∧
      ((run importRemoved).turn .flush).workspace.isOpen "P.cshtml" = true ∧
      (((run importRemoved).turn .flush).workspace.attempt d.output).1 = .ok o ∧
      ((run importRemoved).turn .flush).knowledge.shown .csharp "/a" "P.cshtml" ≠
        some (o.text .csharp) := by
  have hsome : (pageCopy importRemoved).any (fun r => r.2 != some (r.1.text .csharp)) = true := by
    decide +kernel
  obtain ⟨⟨o, copy⟩, hcopy, hne⟩ := (Option.any_eq_true _ _).mp hsome
  obtain ⟨d, hd, hopen, ho, hshown⟩ := pageCopy_eq_some hcopy
  exact ⟨d, o, hd, hopen, ho, hshown ▸ bne_iff_ne.mp hne⟩

end Session

end RazorLang
