import RazorLang.Proofs.Workspace.Output

/-!
# Requests for output, whatever loaders say

`DocumentSnapshot.output_run` says what a request for output does where loaders always say the same. Here is
what holds for any loaders, which may fail or say something else the next time: loading leaves alone which
states have been asked, their outputs and their baselines (`Attempt.OnlyLoads`), so a request concerns only
the state that is asked (`DocumentSnapshot.Answered`). If it gives an output, then each text that is equal to
that of the baseline's output has the version that it has there (`Output.Continues`).
-/

namespace RazorLang

/-- What is known about a document state but its text. -/
def Findings.withoutText (f : Findings) : Findings := { f with loaded := none }

namespace Memory

variable {m m' m'' : Memory}

/-- A later memory in which at most texts are known in addition. -/
structure Rests (m m' : Memory) : Prop where
  next_le : m.next ≤ m'.next
  findings_eq : ∀ n, (m'.findings n).withoutText = (m.findings n).withoutText

theorem Rests.refl (m : Memory) : m.Rests m := ⟨Nat.le_refl _, fun _ => rfl⟩

theorem Rests.trans (h : m.Rests m') (h' : m'.Rests m'') : m.Rests m'' :=
  ⟨Nat.le_trans h.next_le h'.next_le, fun n => (h'.findings_eq n).trans (h.findings_eq n)⟩

theorem Rests.output_eq (h : m.Rests m') (n : Nat) :
    (m'.findings n).output = (m.findings n).output :=
  congrArg (·.output) (h.findings_eq n)

theorem Rests.baseline_eq (h : m.Rests m') (n : Nat) :
    (m'.findings n).baseline = (m.findings n).baseline :=
  congrArg (·.baseline) (h.findings_eq n)

/-- The memory once a document state has been asked for its output. -/
def ask (m : Memory) (state : Nat) : Memory :=
  ((Memory.note state fun known => { known with isRequested := true }).run m).2

theorem findings_ask (m : Memory) (state n : Nat) :
    (m.ask state).findings n =
      if n = state then { m.findings n with isRequested := true } else m.findings n := rfl

end Memory

namespace Attempt

variable {α β : Type} {x : Attempt α} {f : α → Attempt β}

/-- Work that finds out texts and nothing else, whether it fails or not. -/
def OnlyLoads (x : Attempt α) : Prop := ∀ m : Memory, m.Rests (x.run.run m).2

theorem onlyLoads_pure (a : α) : OnlyLoads (pure a) := Memory.Rests.refl

theorem onlyLoads_throw (fault : WorkspaceFault) : OnlyLoads (throw fault : Attempt α) :=
  Memory.Rests.refl

theorem OnlyLoads.bind (hx : x.OnlyLoads) (hf : ∀ a, (f a).OnlyLoads) : (x >>= f).OnlyLoads := by
  intro m
  have hrests := hx m
  cases hrun : x.run.run m with
  | mk r m₁ =>
      rw [hrun] at hrests
      cases r with
      | error fault =>
          rw [run_bind_error hrun]
          exact hrests
      | ok a =>
          rw [run_bind_ok hrun]
          exact hrests.trans (hf a m₁)

theorem onlyLoads_lift_bind {s : StateM Memory α} (hs : ∀ m : Memory, m.Rests (s.run m).2)
    (hf : ∀ a, (f a).OnlyLoads) : OnlyLoads ((liftM s : Attempt α) >>= f) := by
  intro m
  rw [run_lift_bind]
  exact (hs m).trans (hf _ _)

theorem onlyLoads_mapM {f : α → Attempt β} (hf : ∀ a, (f a).OnlyLoads) (l : List α) :
    (l.mapM f).OnlyLoads := by
  induction l with
  | nil => exact onlyLoads_pure []
  | cons a l ih =>
      rw [List.mapM_cons]
      exact (hf a).bind fun b => ih.bind fun bs => onlyLoads_pure (b :: bs)

end Attempt

namespace Memory

theorem rests_version (m : Memory) : m.Rests (Memory.version.run m).2 :=
  ⟨Nat.le_succ _, fun _ => rfl⟩

theorem rests_read (f : TextFile) (m : Memory) : m.Rests ((Memory.read f).run m).2 :=
  ⟨Nat.le_refl _, fun _ => rfl⟩

theorem rests_known (n : Nat) (m : Memory) : m.Rests ((Memory.known n).run m).2 := Rests.refl m

theorem rests_note_loaded (n : Nat) (value : VersionedText) (m : Memory) :
    m.Rests ((Memory.note n fun known => { known with loaded := some value }).run m).2 := by
  refine ⟨Nat.le_refl _, ?_⟩
  intro k
  rw [findings_note]
  by_cases hk : k = n
  · rw [if_pos hk]
    rfl
  · rw [if_neg hk]

end Memory

open Attempt

/-! ## Loading -/

theorem Loader.onlyLoads_load (l : Loader) : l.load.OnlyLoads := by
  have hfresh (text : Text) :
      (do return ⟨text, ← Memory.version⟩ : Attempt VersionedText).OnlyLoads :=
    onlyLoads_lift_bind Memory.rests_version fun _ => onlyLoads_pure _
  induction l with
  | known value => exact onlyLoads_pure value
  | file f =>
      refine onlyLoads_lift_bind (Memory.rests_read f) ?_
      intro reading
      cases reading with
      | versioned value => exact onlyLoads_pure value
      | fresh text => exact hfresh text
      | failed reason => exact onlyLoads_throw _
  | replaced older text ih =>
      -- Whether the older text can be loaded makes no difference here: what fails is dealt with.
      refine onlyLoads_lift_bind ih ?_
      intro found
      cases found with
      | error fault => exact hfresh text
      | ok o =>
          dsimp only
          by_cases heq : (o.text == text) = true
          · rw [if_pos heq]
            exact onlyLoads_pure _
          · rw [if_neg heq]
            exact hfresh text

theorem DocumentState.onlyLoads_load (d : DocumentState) : d.load.OnlyLoads := by
  refine onlyLoads_lift_bind (Memory.rests_known d.serial) ?_
  intro known
  cases known.loaded with
  | some value => exact onlyLoads_pure value
  | none =>
      refine d.loader.onlyLoads_load.bind ?_
      intro value
      exact onlyLoads_lift_bind (Memory.rests_note_loaded d.serial value) fun _ => onlyLoads_pure value

/-! ## Outputs that continue others -/

/-- Where a text is equal to that of an earlier output, it has the same version. -/
def Output.Continues (older newer : Output) : Prop :=
  ∀ language, newer.text language = older.text language →
    newer.version language = older.version language

theorem Output.Continues.refl (o : Output) : o.Continues o := fun _ _ => rfl

namespace DocumentSnapshot

variable {s : DocumentSnapshot} {m m' : Memory}

theorem earlierOutput_rests (h : m.Rests m') (s : DocumentSnapshot) :
    s.earlierOutput m' = s.earlierOutput m := by
  rw [earlierOutput, earlierOutput, h.baseline_eq]
  congr 1
  funext n
  exact h.output_eq n

/-- A version is kept where the text is the same. -/
theorem keepVersion_of_eq {input : Version} {code olderCode : Text} {version : Version}
    (h : code = olderCode) : keepVersion input code (some (olderCode, version)) = version := by
  rw [keepVersion, if_pos (beq_iff_eq.mpr h.symm)]

/-- What is left to do once everything is loaded. -/
def finish (s : DocumentSnapshot) (input : Version) (r : Request) : Attempt Output := do
  let older ← s.baselineOutput
  match older.filter fun o => !o.input.isOlderThan input with
  | some good => return good
  | none =>
    let c ← s.compile r
    return { serial := ← Memory.serial
             compilation := c
             input
             csharp := keepVersion input c.csharp.code
               (older.map fun o => (o.compilation.csharp.code, o.csharp))
             html := keepVersion input c.html.code
               (older.map fun o => (o.compilation.html.code, o.html)) }

/-- Once everything is loaded, at most a serial is handed out, and an output continues the baseline's. -/
theorem finish_run (s : DocumentSnapshot) (input : Version) (q : Request) (m : Memory) :
    ∃ r m', (s.finish input q).run.run m = (r, m') ∧ m.Rests m' ∧
      ∀ o, r = .ok o → ∀ b, s.earlierOutput m = some b → b.Continues o := by
  rw [finish, Attempt.run_lift_bind, baselineOutput_run]
  dsimp only
  cases hgood : (s.earlierOutput m).filter fun o => !o.input.isOlderThan input with
  | some good =>
      refine ⟨.ok good, m, rfl, Memory.Rests.refl m, ?_⟩
      rintro o ⟨⟩ b hb
      obtain rfl : good = b := Option.some.inj ((Option.filter_eq_some_iff.mp hgood).1.symm.trans hb)
      exact Output.Continues.refl good
  | none =>
      cases s.compile q with
      | error fault => exact ⟨.error fault, m, rfl, Memory.Rests.refl m, fun _ h => nomatch h⟩
      | ok c =>
          refine ⟨.ok _, { m with next := m.next + 1 }, rfl, ⟨Nat.le_succ _, fun _ => rfl⟩, ?_⟩
          rintro o ⟨⟩ b hb language htext
          cases language with
          | csharp =>
              show keepVersion input c.csharp.code _ = b.csharp
              rw [hb]
              exact keepVersion_of_eq htext
          | html =>
              show keepVersion input c.html.code _ = b.html
              rw [hb]
              exact keepVersion_of_eq htext

theorem make_eq (s : DocumentSnapshot) (isCalledOff : Bool) :
    s.make isCalledOff = (do
      let text ← s.state.load
      let imports ← (s.project.importsOf s.state.host).mapM fun i => do return (i, ← i.load)
      if isCalledOff then throw .cancelled
      s.finish (s.inputVersion text (imports.map Prod.snd)) (s.request text.text imports)) := rfl

/-- Making an output finds out texts and hands out serials, and the output continues the baseline's. -/
theorem make_run_any (s : DocumentSnapshot) (isCalledOff : Bool) (m : Memory) :
    ∃ r m', (s.make isCalledOff).run.run m = (r, m') ∧ m.Rests m' ∧
      ∀ o, r = .ok o → ∀ b, s.earlierOutput m = some b → b.Continues o := by
  have himports : ((s.project.importsOf s.state.host).mapM fun i => do
      return (i, ← i.load) : Attempt _).OnlyLoads :=
    onlyLoads_mapM (fun i => i.onlyLoads_load.bind fun _ => onlyLoads_pure _) _
  have htext := s.state.onlyLoads_load m
  rw [make_eq]
  cases hload : s.state.load.run.run m with
  | mk r m₁ =>
      rw [hload] at htext
      cases r with
      | error fault =>
          exact ⟨_, m₁, Attempt.run_bind_error hload, htext, fun _ h => nomatch h⟩
      | ok text =>
          rw [Attempt.run_bind_ok hload]
          have hrests := himports m₁
          cases hrun : ((s.project.importsOf s.state.host).mapM fun i => do
              return (i, ← i.load) : Attempt _).run.run m₁ with
          | mk r m₂ =>
              rw [hrun] at hrests
              cases r with
              | error fault =>
                  exact ⟨_, m₂, Attempt.run_bind_error hrun, htext.trans hrests, fun _ h => nomatch h⟩
              | ok imports =>
                  rw [Attempt.run_bind_ok hrun]
                  cases isCalledOff with
                  | true => exact ⟨_, m₂, rfl, htext.trans hrests, fun _ h => nomatch h⟩
                  | false =>
                      obtain ⟨r, m', hfinish, hlast, hcontinues⟩ := s.finish_run
                        (s.inputVersion text (imports.map Prod.snd)) (s.request text.text imports) m₂
                      refine ⟨r, m', hfinish, (htext.trans hrests).trans hlast, ?_⟩
                      rw [earlierOutput_rests (htext.trans hrests)] at hcontinues
                      exact hcontinues

/-! ## Requests -/

/-- What a request does to what is known, if there is no output of the state that is asked. -/
structure Answered (m m' : Memory) (state : Nat) : Prop where
  next_le : m.next ≤ m'.next
  others : ∀ n, n ≠ state → (m'.findings n).withoutText = (m.findings n).withoutText
  isRequested : (m'.findings state).isRequested = true
  answer : (m'.findings state).output = none ∧
      (m'.findings state).baseline = (m.findings state).baseline ∨
    ∃ o, (m'.findings state).output = some o ∧
      ∀ n b, (m.findings state).baseline = some n → (m.findings n).output = some b → b.Continues o

namespace Answered

variable {n k : Nat}

theorem output_eq (h : Answered m m' n) (hk : k ≠ n) :
    (m'.findings k).output = (m.findings k).output :=
  congrArg (·.output) (h.others k hk)

theorem isRequested_eq (h : Answered m m' n) (hk : k ≠ n) :
    (m'.findings k).isRequested = (m.findings k).isRequested :=
  congrArg (·.isRequested) (h.others k hk)

theorem isRequested_mono (h : Answered m m' n) (hk : (m.findings k).isRequested = true) :
    (m'.findings k).isRequested = true := by
  by_cases hkn : k = n
  · exact hkn ▸ h.isRequested
  · exact (h.isRequested_eq hkn).trans hk

/-- A state that has no output behind a request had none before it, and keeps its baseline. -/
theorem baseline_eq (h : Answered m m' n) (hnone : (m.findings n).output = none)
    (hk : (m'.findings k).output = none) :
    (m.findings k).output = none ∧ (m'.findings k).baseline = (m.findings k).baseline := by
  by_cases hkn : k = n
  · subst hkn
    rcases h.answer with ⟨-, hsame⟩ | ⟨o, ho, -⟩
    · exact ⟨hnone, hsame⟩
    · exact nomatch hk.symm.trans ho
  · exact ⟨(h.output_eq hkn).symm.trans hk, congrArg (·.baseline) (h.others k hkn)⟩

end Answered

theorem earlierOutput_ask (s : DocumentSnapshot) (m : Memory) (state : Nat) :
    s.earlierOutput (m.ask state) = s.earlierOutput m := by
  have hsame (n : Nat) : ((m.ask state).findings n).baseline = (m.findings n).baseline ∧
      ((m.ask state).findings n).output = (m.findings n).output := by
    rw [Memory.findings_ask]
    by_cases hn : n = state
    · rw [if_pos hn]
      exact ⟨rfl, rfl⟩
    · rw [if_neg hn]
      exact ⟨rfl, rfl⟩
  rw [earlierOutput, earlierOutput, (hsame _).1]
  congr 1
  funext n
  exact (hsame n).2

/-- A request for output that finds none. -/
theorem output_answered (hnone : (m.findings s.state.serial).output = none) (isCalledOff : Bool) :
    Answered m ((s.output isCalledOff).run.run m).2 s.state.serial := by
  obtain ⟨r, m₁, hmake, hrests, hcontinues⟩ := s.make_run_any isCalledOff (m.ask s.state.serial)
  rw [earlierOutput_ask] at hcontinues
  -- the request is noted first; making the output then finds out about texts only
  have hother (n : Nat) (hn : n ≠ s.state.serial) :
      (m₁.findings n).withoutText = (m.findings n).withoutText := by
    rw [hrests.findings_eq, Memory.findings_ask, if_neg hn]
  have hself : (m₁.findings s.state.serial).withoutText =
      { (m.findings s.state.serial).withoutText with isRequested := true } := by
    rw [hrests.findings_eq, Memory.findings_ask, if_pos rfl]
    rfl
  have hrequested : (m₁.findings s.state.serial).isRequested = true :=
    congrArg (·.isRequested) hself
  have hrun : (s.output isCalledOff).run.run m = (r, m₁.settle s.state.serial r) := by
    rw [output, Attempt.run_lift_bind, Memory.known_run, hnone]
    dsimp only
    rw [Attempt.run_lift_bind]
    cases r with
    | error fault => exact Attempt.run_bind_error hmake
    | ok o => exact Attempt.run_bind_ok hmake
  rw [hrun]
  cases r with
  | error fault =>
      exact
        { next_le := hrests.next_le
          others := hother
          isRequested := hrequested
          answer := Or.inl ⟨(congrArg (·.output) hself).trans hnone, congrArg (·.baseline) hself⟩ }
  | ok o =>
      refine
        { next_le := hrests.next_le
          others := ?_
          isRequested := (m₁.isRequested_keep _ _ o).trans hrequested
          answer := Or.inr ⟨o, ?_, ?_⟩ }
      · intro n hn
        show ((m₁.keep s.state.serial o).findings n).withoutText = _
        rw [Memory.findings_keep, if_neg hn, hother n hn]
      · show ((m₁.keep s.state.serial o).findings s.state.serial).output = some o
        rw [Memory.findings_keep, if_pos rfl]
      · intro n b hbaseline hb
        refine hcontinues o rfl b ?_
        rw [earlierOutput, hbaseline, Option.bind_some, hb]

end DocumentSnapshot

end RazorLang
