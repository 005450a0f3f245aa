import RazorLang.Proofs.Workspace.Change
import RazorLang.Proofs.Workspace.Notification

/-!
# Kept outputs are never out of date

A document is not compiled again if versions say that nothing has changed. In a history of changes and of
requests for output, in any order and also of earlier snapshots, this is right: a request that succeeds gives
what compiling the snapshot directly gives (`History.output_eq_compileDirectly`). It holds where the loaders
that changes bring always give the same text, with a version of its own, and where every project finds its
imports exactly. The last condition is needed, since imports are found whatever the case of the letters of
their paths, while changes are passed on to importers by the exact path
(`History.output_ne_compileDirectly_otherCase`).
-/

namespace RazorLang

open DocumentState ProjectState

namespace History

/-- What happens in a history. -/
inductive Act where
  | change (plan : Plan)
  /-- A document of one of the states so far, the latest first, is asked for its output. -/
  | request (state : Nat) (path : Text) (isCalledOff : Bool)

/-- The history after something has happened. -/
def act (h : History) : Act → History
  | .change plan => h.note (h.workspace.perform plan).2
  | .request state path isCalledOff =>
    match h.states[state]?.bind (·.snapshot? path) with
    | none => h
    | some s => { h with workspace := (h.workspace.attempt (s.output isCalledOff)).2 }

/-- The history in which several things have happened. -/
def run (acts : List Act) : History := acts.foldl act {}

/-- A change brings a loader only with the version that is handed out for the change. -/
def Act.IsFresh : Act → Prop
  | .change plan => ∀ v, (plan v).BringsAt v
  | .request .. => True

variable {h : History} {w : Workspace} {s : DocumentSnapshot} {p : ProjectState} {path : Text}

theorem has_of_snapshot? (hp : p ∈ h.states) (hs : p.snapshot? path = some s) : h.Has s := by
  obtain ⟨d, hd, rfl⟩ := Option.map_eq_some_iff.mp hs
  exact ⟨hp, List.mem_map_of_mem (PathMap.mem_of_get? hd)⟩

theorem states_subset_act (h : History) (a : Act) : h.states ⊆ (h.act a).states := by
  cases a with
  | change plan => exact List.subset_append_right _ _
  | request state path isCalledOff =>
      rw [act]
      cases h.states[state]?.bind (·.snapshot? path) with
      | none => exact List.Subset.refl _
      | some s => exact List.Subset.refl _

theorem states_subset_foldl (acts : List Act) (h : History) :
    h.states ⊆ (acts.foldl act h).states := by
  induction acts generalizing h with
  | nil => exact List.Subset.refl _
  | cons a acts ih => exact List.Subset.trans (h.states_subset_act a) (ih _)

namespace Coherent

/-! ## Histories -/

theorem act (hc : h.Coherent) {a : Act} (hfresh : a.IsFresh)
    (hexact : ∀ p ∈ (h.act a).states, p.ImportsExactly) : (h.act a).Coherent := by
  cases a with
  | change plan =>
      exact hc.apply (w := (h.workspace.act Memory.version).2) (Memory.extends_next _) rfl
        (Nat.lt_succ_self _) (hfresh _) hexact
  | request state path isCalledOff =>
      rw [History.act]
      cases hsnapshot : h.states[state]?.bind (·.snapshot? path) with
      | none => exact hc
      | some s =>
          obtain ⟨p, hp, hs⟩ := Option.bind_eq_some_iff.mp hsnapshot
          exact (hc.output_request (has_of_snapshot? (List.mem_of_getElem? hp) hs) isCalledOff).2

theorem foldl (acts : List Act) (hc : h.Coherent) (hfresh : ∀ a ∈ acts, a.IsFresh)
    (hexact : ∀ p ∈ (acts.foldl History.act h).states, p.ImportsExactly) :
    (acts.foldl History.act h).Coherent := by
  induction acts generalizing h with
  | nil => exact hc
  | cons a acts ih =>
      obtain ⟨ha, hfresh⟩ := List.forall_mem_cons.mp hfresh
      exact ih (hc.act ha fun p hp => hexact p (states_subset_foldl acts _ hp)) hfresh hexact

end Coherent

/-- Whenever a snapshot gives an output, then it is what compiling the snapshot directly gives. -/
theorem output_eq_compileDirectly {acts : List Act} (hfresh : ∀ a ∈ acts, a.IsFresh)
    (hexact : ∀ p ∈ (run acts).states, p.ImportsExactly) (hp : p ∈ (run acts).states)
    (hs : p.snapshot? path = some s) {isCalledOff : Bool} {o : Output}
    (ho : ((run acts).workspace.attempt (s.output isCalledOff)).1 = .ok o) :
    ((run acts).workspace.attempt s.compileDirectly).1 = .ok o.compilation := by
  have hc : (run acts).Coherent := coherent_start.foldl acts hfresh hexact
  have hhas := has_of_snapshot? hp hs
  rw [← (hc.output_request hhas isCalledOff).1 o ho]
  exact DocumentSnapshot.compileDirectly_run hhas.contains hc.truthful

/-! ## An import that is edited -/

/-- A page is asked for its output, before and after the text of its import becomes another one. -/
def importEdited (importPath : Text) : List Act :=
  [.change fun _ => .addProject { path := "/a" },
    .change fun v => .addDocument "/a" (.new importPath importPath) (.known ⟨"@using A", v⟩),
    .change fun v => .addDocument "/a" (.new "P.cshtml" "P.cshtml") (.known ⟨"@x", v⟩),
    .request 0 "P.cshtml" false,
    .change fun _ => .changeText "/a" importPath "@using B"]

theorem isFresh_importEdited (importPath : Text) : ∀ a ∈ importEdited importPath, a.IsFresh := by
  simp [importEdited, Act.IsFresh, Change.BringsAt, Loader.Gives]

/-- What the latest snapshot of the page gives, and what compiling it directly gives. -/
def pageOutputs (acts : List Act) : Option (Output × Compilation) := do
  let p ← (run acts).states.head?
  let s ← p.snapshot? "P.cshtml"
  let o ← ((run acts).workspace.attempt s.output).1.toOption
  let c ← ((run acts).workspace.attempt s.compileDirectly).1.toOption
  return (o, c)

theorem pageOutputs_eq_some {acts : List Act} {o : Output} {c : Compilation}
    (h : pageOutputs acts = some (o, c)) :
    ∃ p s, p ∈ (run acts).states ∧ p.snapshot? "P.cshtml" = some s ∧
      ((run acts).workspace.attempt s.output).1 = .ok o ∧
      ((run acts).workspace.attempt s.compileDirectly).1 = .ok c := by
  obtain ⟨p, hp, h⟩ := Option.bind_eq_some_iff.mp h
  obtain ⟨s, hs, h⟩ := Option.bind_eq_some_iff.mp h
  obtain ⟨o', ho, h⟩ := Option.bind_eq_some_iff.mp h
  obtain ⟨c', hc, h⟩ := Option.bind_eq_some_iff.mp h
  obtain ⟨rfl, rfl⟩ := Prod.mk.inj (Option.some.inj h)
  exact ⟨p, s, List.mem_of_head? hp, hs, eq_ok_of_toOption ho, eq_ok_of_toOption hc⟩

/-- The page is compiled with the new text of its import. -/
theorem output_eq_compileDirectly_importEdited :
    ∃ p s o, p ∈ (run (importEdited "_ViewImports.cshtml")).states ∧
      p.snapshot? "P.cshtml" = some s ∧
      ((run (importEdited "_ViewImports.cshtml")).workspace.attempt s.output).1 = .ok o ∧
      ((run (importEdited "_ViewImports.cshtml")).workspace.attempt s.compileDirectly).1 =
        .ok o.compilation := by
  have hsome : (pageOutputs (importEdited "_ViewImports.cshtml")).isSome = true := by decide +kernel
  obtain ⟨⟨o, c⟩, houtputs⟩ := Option.isSome_iff_exists.mp hsome
  obtain ⟨p, s, hp, hs, ho, -⟩ := pageOutputs_eq_some houtputs
  have hexact : ∀ p ∈ (run (importEdited "_ViewImports.cshtml")).states, p.ImportsExactly := by
    decide +kernel
  exact ⟨p, s, o, hp, hs, ho,
    output_eq_compileDirectly (isFresh_importEdited _) hexact hp hs ho⟩

/-- With other letters in its path, the import is found, but the page keeps what it had before. -/
theorem output_ne_compileDirectly_otherCase :
    ∃ p s o c, p ∈ (run (importEdited "_viewimports.cshtml")).states ∧
      p.snapshot? "P.cshtml" = some s ∧
      ((run (importEdited "_viewimports.cshtml")).workspace.attempt s.output).1 = .ok o ∧
      ((run (importEdited "_viewimports.cshtml")).workspace.attempt s.compileDirectly).1 = .ok c ∧
      o.compilation.csharp.code ≠ c.csharp.code := by
  have hsome : (pageOutputs (importEdited "_viewimports.cshtml")).any
      (fun r => r.1.compilation.csharp.code != r.2.csharp.code) = true := by
    decide +kernel
  obtain ⟨⟨o, c⟩, houtputs, hne⟩ := (Option.any_eq_true _ _).mp hsome
  obtain ⟨p, s, hp, hs, ho, hc⟩ := pageOutputs_eq_some houtputs
  exact ⟨p, s, o, c, hp, hs, ho, hc, bne_iff_ne.mp hne⟩

end History

end RazorLang
