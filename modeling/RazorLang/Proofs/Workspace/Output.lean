import RazorLang.Proofs.Workspace.Loading
import RazorLang.Workspace.Output

/-!
# What a request for output does

With constant loaders, the texts of a snapshot are known in advance, and so is what compiling it gives
(`DocumentSnapshot.compiled`). A request for output that finds none loads the document and its imports.
`DocumentSnapshot.Outcome` lists what may become of it then, with what each case says about versions, and
`DocumentSnapshot.output_run` says that this is all.
-/

namespace RazorLang

/-- What does not fail gives its result. -/
theorem eq_ok_of_toOption {α : Type} {x : Except WorkspaceFault α} {a : α}
    (h : x.toOption = some a) : x = .ok a := by
  cases x with
  | error fault => exact absurd h.symm (Option.some_ne_none a)
  | ok b => exact congrArg Except.ok (Option.some.inj h)

namespace Version

theorem newest_serial_lt {v : Version} {others : List Version} {bound : Nat} :
    (v.newest others).serial < bound ↔ v.serial < bound ∧ ∀ w ∈ others, w.serial < bound := by
  induction others generalizing v with
  | nil => simp [newest]
  | cons w others ih =>
      show ((newer v w).newest others).serial < bound ↔ _
      rw [ih, newer_serial, Nat.max_lt, List.forall_mem_cons, and_assoc]

end Version

namespace Memory

/-- The memory once there is an output of a document state. -/
def keep (m : Memory) (state : Nat) (o : Output) : Memory :=
  ((Memory.note state fun known => { known with output := some o, baseline := none }).run m).2

theorem findings_keep (m : Memory) (state n : Nat) (o : Output) :
    (m.keep state o).findings n =
      if n = state then { m.findings n with output := some o, baseline := none }
      else m.findings n := rfl

theorem loaded_keep (m : Memory) (state n : Nat) (o : Output) :
    ((m.keep state o).findings n).loaded = (m.findings n).loaded := by
  rw [findings_keep]
  by_cases hn : n = state
  · rw [if_pos hn]
  · rw [if_neg hn]

theorem isRequested_keep (m : Memory) (state n : Nat) (o : Output) :
    ((m.keep state o).findings n).isRequested = (m.findings n).isRequested := by
  rw [findings_keep]
  by_cases hn : n = state
  · rw [if_pos hn]
  · rw [if_neg hn]

/-- The memory once a request for the output of a document state has been answered. -/
def settle (m : Memory) (state : Nat) : Except WorkspaceFault Output → Memory
  | .ok o => m.keep state o
  | .error _ => m

end Memory

namespace Output

/-- A generated text. -/
def text (o : Output) : Language → Text
  | .csharp => o.compilation.csharp.code
  | .html => o.compilation.html.code

/-- The version of a generated text. -/
def version (o : Output) : Language → Version
  | .csharp => o.csharp
  | .html => o.html

/-- The versions of what was made are not newer than those of what it was made from. -/
def IsDated (o : Output) : Prop := ∀ language, (o.version language).serial ≤ o.input.serial

end Output

namespace DocumentSnapshot

/-- A generated text has the version of the input, or an older one. -/
theorem keepVersion_le {input : Version} {code : Text} {older : Option (Text × Version)}
    (h : ∀ r, older = some r → r.2.serial ≤ input.serial) :
    (keepVersion input code older).serial ≤ input.serial := by
  cases older with
  | none => exact Nat.le_refl _
  | some r =>
      rw [keepVersion]
      split
      · exact h r rfl
      · exact Nat.le_refl _

/-- Loads the document and its imports and compiles them, whatever has been generated before. -/
def compileDirectly (s : DocumentSnapshot) : Attempt Compilation := do
  let text ← s.state.load
  let imports ← (s.project.importsOf s.state.host).mapM fun i => do return (i, ← i.load)
  s.compile (s.request text.text imports)

/-- The states whose texts the output is made from: the document's, and those of its imports. -/
def parts (s : DocumentSnapshot) : List DocumentState := s.state :: s.project.importsOf s.state.host

/-- The versions of what else the output is made from. -/
def settings (s : DocumentSnapshot) : List Version :=
  [s.project.configurationVersion, s.project.discoveryVersion, s.project.documentsVersion]

/-- What compiling the document gives if all loaders are constant. -/
def compiled (s : DocumentSnapshot) : Except WorkspaceFault Compilation :=
  s.compile
    { source := sourceOf s.state.host s.state.loader.text
      fileKind := s.state.host.fileKind
      imports := (s.project.importsOf s.state.host).map fun i => sourceOf i.host i.loader.text }

/-- The texts of the document and of its imports have been loaded. -/
def HasLoaded (s : DocumentSnapshot) (m : Memory) : Prop :=
  ∀ d ∈ s.parts, (m.findings d.serial).loaded ≠ none

/-- The versions of everything that the output is made from, as far as they are known, are below a bound. -/
structure InputBelow (s : DocumentSnapshot) (m : Memory) (bound : Nat) : Prop where
  settings : ∀ v ∈ s.settings, v.serial < bound
  texts : ∀ d ∈ s.parts, ∀ value, (m.findings d.serial).loaded = some value →
    value.version.serial < bound

variable {s : DocumentSnapshot} {docs : DocumentState → Prop} {m m' : Memory}

/-! ## Loading the document and its imports -/

theorem mapM_load_run (asked : Nat → Prop) {states : List DocumentState} (hdocs : ∀ d ∈ states, docs d)
    (ht : m.Truthful docs) :
    ∃ values m', (states.mapM fun i => do return (i, ← i.load) : Attempt _).run.run m =
        (.ok values, m') ∧ values.map Prod.fst = states ∧
      (∀ e ∈ values, e.2.text = e.1.loader.text ∧
        (m'.findings e.1.serial).loaded = some e.2) ∧ Memory.Learns docs asked m m' := by
  induction states generalizing m with
  | nil => exact ⟨[], m, rfl, rfl, fun e he => absurd he List.not_mem_nil, Memory.Learns.refl m⟩
  | cons d states ih =>
      obtain ⟨value, m₁, hload, htext, hloaded, hlearn⟩ :=
        DocumentState.load_run asked (hdocs d List.mem_cons_self) ht
      obtain ⟨values, m₂, hrun, hstates, hvalues, hlearn'⟩ :=
        ih (fun e he => hdocs e (List.mem_cons_of_mem _ he)) (ht.learn hlearn)
      refine ⟨(d, value) :: values, m₂, ?_, by rw [List.map_cons, hstates], ?_,
        hlearn.trans hlearn'⟩
      · have hpair : (do return (d, ← d.load) : Attempt _).run.run m = (.ok (d, value), m₁) := by
          rw [Attempt.run_bind_ok hload]
          rfl
        rw [List.mapM_cons, Attempt.run_bind_ok hpair, Attempt.run_bind_ok hrun]
        rfl
      · intro e he
        rcases List.mem_cons.mp he with rfl | he
        · exact ⟨htext, hlearn'.loaded _ _ hloaded⟩
        · exact hvalues e he

/-- The document and its imports can be loaded; this is all that the request and the input version say. -/
theorem load_run (asked : Nat → Prop) (hs : ∀ d ∈ s.parts, docs d) (ht : m.Truthful docs) :
    ∃ text m₁ imports m', s.state.load.run.run m = (.ok text, m₁) ∧
      ((s.project.importsOf s.state.host).mapM fun i => do
        return (i, ← i.load) : Attempt _).run.run m₁ = (.ok imports, m') ∧
      Memory.Learns docs asked m m' ∧ s.HasLoaded m' ∧
      s.compile (s.request text.text imports) = s.compiled ∧
      ∀ bound, (s.inputVersion text (imports.map Prod.snd)).serial < bound ↔
        s.InputBelow m' bound := by
  obtain ⟨hstate, himports⟩ := List.forall_mem_cons.mp hs
  obtain ⟨text, m₁, hload, htext, hloaded, hlearn⟩ := DocumentState.load_run asked hstate ht
  obtain ⟨imports, m', hrun, hstates, hvalues, hlearn'⟩ :=
    mapM_load_run asked himports (ht.learn hlearn)
  -- what was loaded are the texts of the parts of the snapshot
  have hparts : s.parts = s.state :: imports.map Prod.fst := by rw [parts, hstates]
  have hloaded' : (m'.findings s.state.serial).loaded = some text := hlearn'.loaded _ _ hloaded
  refine ⟨text, m₁, imports, m', hload, hrun, hlearn.trans hlearn', ?_, ?_, ?_⟩
  · rw [HasLoaded, hparts, List.forall_mem_cons, List.forall_mem_map, hloaded']
    refine ⟨Option.some_ne_none _, ?_⟩
    intro e he
    rw [(hvalues e he).2]
    exact Option.some_ne_none _
  · rw [compiled, request, htext, ← hstates, List.map_map]
    congr 2
    exact List.map_congr_left fun e he => congrArg (sourceOf e.1.host) (hvalues e he).1
  · intro bound
    rw [inputVersion, Version.newest_serial_lt, List.forall_mem_append, List.forall_mem_map,
      List.forall_mem_map]
    constructor
    · rintro ⟨htext, hsettings, himports⟩
      refine ⟨hsettings, ?_⟩
      rw [hparts, List.forall_mem_cons, List.forall_mem_map, hloaded']
      refine ⟨?_, ?_⟩
      · rintro value ⟨⟩
        exact htext
      · intro e he value hvalue
        rw [(hvalues e he).2] at hvalue
        obtain rfl := Option.some.inj hvalue
        exact himports e he
    · rintro ⟨hsettings, htexts⟩
      rw [hparts, List.forall_mem_cons, List.forall_mem_map] at htexts
      refine ⟨htexts.1 text hloaded', hsettings, ?_⟩
      intro e he
      exact htexts.2 e he e.2 (hvalues e he).2

theorem run_liftExcept {α : Type} (x : Except WorkspaceFault α) (m : Memory) :
    (liftM x : Attempt α).run.run m = (x, m) := by
  cases x <;> rfl

theorem compileDirectly_run (hs : ∀ d ∈ s.parts, docs d) (ht : m.Truthful docs) :
    (s.compileDirectly.run.run m).1 = s.compiled := by
  obtain ⟨text, m₁, imports, m', hload, hrun, -, -, hcompile, -⟩ :=
    load_run (fun _ => False) hs ht
  rw [compileDirectly, Attempt.run_bind_ok hload, Attempt.run_bind_ok hrun, hcompile,
    run_liftExcept]

/-! ## Requests for output -/

theorem output_run_of_some {o : Output} (h : (m.findings s.state.serial).output = some o)
    (isCalledOff : Bool) : (s.output isCalledOff).run.run m = (.ok o, m) := by
  rw [output, Attempt.run_lift_bind, Memory.known_run, h]
  rfl

/-- The output of the baseline, as far as it is known. -/
def earlierOutput (s : DocumentSnapshot) (m : Memory) : Option Output :=
  (m.findings s.state.serial).baseline.bind fun n => (m.findings n).output

theorem baselineOutput_run (s : DocumentSnapshot) (m : Memory) :
    s.baselineOutput.run m = (s.earlierOutput m, m) := by
  rw [baselineOutput, Memory.run_bind, Memory.known_run, earlierOutput]
  cases (m.findings s.state.serial).baseline with
  | none => rfl
  | some n => rfl

/-- What becomes of a request for output once everything is loaded: it fails, or the baseline has an output
    that is new enough, or the document is compiled. -/
inductive Outcome (s : DocumentSnapshot) (isCalledOff : Bool) (m : Memory) :
    Except WorkspaceFault Output → Memory → Prop where
  | fails {fault : WorkspaceFault} (compiled : isCalledOff = false → s.compiled = .error fault) :
      Outcome s isCalledOff m (.error fault) m
  | reuses {o : Output} {state : Nat} (baseline : (m.findings s.state.serial).baseline = some state)
      (output : (m.findings state).output = some o)
      (newer : ∀ bound, o.input.serial < bound → s.InputBelow m bound) :
      Outcome s isCalledOff m (.ok o) m
  | compiles {o : Output} (compiled : s.compiled = .ok o.compilation)
      (input : ∀ bound, o.input.serial < bound ↔ s.InputBelow m bound)
      (older : ∀ b, s.earlierOutput m = some b → b.input.serial < o.input.serial)
      (version : ∀ language, o.version language = keepVersion o.input (o.text language)
        ((s.earlierOutput m).map fun b => (b.text language, b.version language))) :
      Outcome s isCalledOff m (.ok o) { m with next := m.next + 1 }

/-- Nothing more is found out about documents than that there is an output. -/
theorem Outcome.memory {isCalledOff : Bool} {r : Except WorkspaceFault Output}
    (h : s.Outcome isCalledOff m r m') : m.next ≤ m'.next ∧ m'.findings = m.findings := by
  cases h with
  | fails compiled => exact ⟨Nat.le_refl _, rfl⟩
  | reuses baseline output newer => exact ⟨Nat.le_refl _, rfl⟩
  | compiles compiled input older version => exact ⟨Nat.le_succ _, rfl⟩

theorem make_run (hs : ∀ d ∈ s.parts, docs d) (ht : m.Truthful docs) (asked : Nat → Prop)
    (isCalledOff : Bool) :
    ∃ m' r m'', (s.make isCalledOff).run.run m = (r, m'') ∧ Memory.Learns docs asked m m' ∧
      s.HasLoaded m' ∧ s.Outcome isCalledOff m' r m'' := by
  obtain ⟨text, m₁, imports, m', hload, hrun, hlearn, hloaded, hcompile, hinput⟩ :=
    load_run asked hs ht
  cases hresult : (s.make isCalledOff).run.run m with
  | mk r m'' =>
      refine ⟨m', r, m'', rfl, hlearn, hloaded, ?_⟩
      rw [make, Attempt.run_bind_ok hload, Attempt.run_bind_ok hrun] at hresult
      cases isCalledOff with
      | true =>
          obtain ⟨rfl, rfl⟩ := Prod.mk.inj hresult
          exact .fails fun h => absurd h (by decide)
      | false =>
          simp only [Bool.false_eq_true, if_false] at hresult
          rw [Attempt.run_lift_bind, baselineOutput_run, hcompile] at hresult
          generalize s.inputVersion text (imports.map Prod.snd) = input at hinput hresult
          dsimp only at hresult
          -- The baseline's output is taken if it is as new as what the document is made from.
          cases hgood : (s.earlierOutput m').filter fun o => !o.input.isOlderThan input with
          | some good =>
              rw [hgood] at hresult
              obtain ⟨rfl, rfl⟩ := Prod.mk.inj hresult
              obtain ⟨hbind, hnew⟩ := Option.filter_eq_some_iff.mp hgood
              obtain ⟨state, hstate, houtput⟩ := Option.bind_eq_some_iff.mp hbind
              refine .reuses hstate houtput ?_
              intro bound hbound
              have hle : input.serial ≤ good.input.serial := by
                simpa [Version.isOlderThan] using hnew
              exact (hinput bound).mp (Nat.lt_of_le_of_lt hle hbound)
          | none =>
              rw [hgood] at hresult
              cases hcompiled : s.compiled with
              | error fault =>
                  rw [hcompiled] at hresult
                  obtain ⟨rfl, rfl⟩ := Prod.mk.inj hresult
                  exact .fails fun _ => hcompiled
              | ok c =>
                  rw [hcompiled] at hresult
                  obtain ⟨rfl, rfl⟩ := Prod.mk.inj hresult
                  refine .compiles hcompiled hinput ?_ ?_
                  · intro b hb
                    have hold := Option.filter_eq_none_iff.mp hgood b hb
                    simpa [Version.isOlderThan] using hold
                  · intro language
                    cases language with
                    | csharp => rfl
                    | html => rfl

/-- What becomes of a request for output where there is none: the document and its imports are loaded, and
    if there is an output then, it is kept. -/
theorem output_run (hs : ∀ d ∈ s.parts, docs d) (ht : m.Truthful docs)
    (hnone : (m.findings s.state.serial).output = none) (isCalledOff : Bool) :
    ∃ m' r m'', (s.output isCalledOff).run.run m = (r, m''.settle s.state.serial r) ∧
      Memory.Learns docs (· = s.state.serial) m m' ∧
      (m'.findings s.state.serial).isRequested = true ∧ s.HasLoaded m' ∧
      s.Outcome isCalledOff m' r m'' := by
  have hask := Memory.Learns.ask docs m s.state.serial
  obtain ⟨m', r, m'', hrun, hlearn, hloaded, houtcome⟩ :=
    make_run hs (ht.learn hask) (· = s.state.serial) isCalledOff
  have hrequested := hlearn.isRequested s.state.serial (by
    rw [Memory.findings_note, if_pos rfl])
  refine ⟨m', r, m'', ?_, hask.trans hlearn, hrequested, hloaded, houtcome⟩
  rw [output, Attempt.run_lift_bind, Memory.known_run, hnone]
  dsimp only
  rw [Attempt.run_lift_bind]
  cases r with
  | error fault => exact Attempt.run_bind_error hrun
  | ok o => exact Attempt.run_bind_ok hrun

end DocumentSnapshot

end RazorLang
