import Mathlib.Data.List.Chain
import RazorLang.Proofs.Workspace.Caching
import RazorLang.Proofs.Workspace.Passage
import RazorLang.Proofs.Workspace.Request

/-!
# Versions along the states of a document

Every document state that is asked for its output looks for the output of the latest state that was asked
before it, and keeps the versions of texts that are the same. The states of a document are its *trail*, and
`Memory.Versions` is the invariant along it: the baseline of a state without an output is the latest earlier
state that was asked, and an output continues the one before it if no state in between was asked. Each kind of
step keeps it: a document that is kept (`Versions.again`), replaced (`Versions.replaced`) or new
(`Versions.first`), and a request (`Versions.answered`).

So versions change only with the texts (`History.version_eq_of_answers`), as long as states are asked in their
order and the state that is asked before gives an output. A state that was asked in vain stays the baseline,
and the versions start anew behind it (`History.version_ne_calledOff`).
-/

namespace RazorLang

open DocumentState

namespace Memory

/-- What is known along the states of a document, which are given by their serials, the latest first. -/
structure Versions (m : Memory) (trail : List Nat) : Prop where
  lt : ∀ n ∈ trail, n < m.next
  descending : trail.Pairwise fun newer older => older ≤ newer
  asked : ∀ n ∈ trail, (m.findings n).output ≠ none → (m.findings n).isRequested = true
  baseline_asked : ∀ n ∈ trail, (m.findings n).output = none → ∀ b, (m.findings n).baseline = some b →
    b ∈ trail ∧ b < n ∧ (m.findings b).isRequested = true
  baseline_latest : ∀ n ∈ trail, (m.findings n).output = none → ∀ k ∈ trail, k < n →
    (m.findings k).isRequested = true → ∃ b, (m.findings n).baseline = some b ∧ k ≤ b
  continues : ∀ n ∈ trail, ∀ k ∈ trail, k < n →
    (∀ j ∈ trail, k < j → j < n → (m.findings j).isRequested = false) → ∀ o o',
      (m.findings k).output = some o → (m.findings n).output = some o' → o.Continues o'

namespace Versions

variable {m m' : Memory} {trail trail' : List Nat} {n : Nat} {d d' : DocumentState}

theorem nil (m : Memory) : m.Versions [] where
  lt _ h := absurd h List.not_mem_nil
  descending := List.Pairwise.nil
  asked _ h := absurd h List.not_mem_nil
  baseline_asked _ h := absurd h List.not_mem_nil
  baseline_latest _ h := absurd h List.not_mem_nil
  continues _ h := absurd h List.not_mem_nil

/-- Texts that become known, and what is known about other states, make no difference. -/
theorem congr (h : m.Versions trail) (hnext : m.next ≤ m'.next)
    (hsame : ∀ n ∈ trail, (m'.findings n).withoutText = (m.findings n).withoutText) :
    m'.Versions trail := by
  -- the invariant speaks of requests, outputs and baselines of the trail only
  have hrequested (n : Nat) (hn : n ∈ trail) :
      (m'.findings n).isRequested = (m.findings n).isRequested :=
    congrArg (·.isRequested) (hsame n hn)
  have houtput (n : Nat) (hn : n ∈ trail) : (m'.findings n).output = (m.findings n).output :=
    congrArg (·.output) (hsame n hn)
  have hbaseline (n : Nat) (hn : n ∈ trail) :
      (m'.findings n).baseline = (m.findings n).baseline :=
    congrArg (·.baseline) (hsame n hn)
  refine
    { lt := fun n hn => Nat.lt_of_lt_of_le (h.lt n hn) hnext
      descending := h.descending
      asked := ?_
      baseline_asked := ?_
      baseline_latest := ?_
      continues := ?_ }
  · intro n hn
    rw [houtput n hn, hrequested n hn]
    exact h.asked n hn
  · intro n hn
    rw [houtput n hn, hbaseline n hn]
    intro hnone b hb
    obtain ⟨hmem, hlt, hasked⟩ := h.baseline_asked n hn hnone b hb
    exact ⟨hmem, hlt, (hrequested b hmem).trans hasked⟩
  · intro n hn
    rw [houtput n hn, hbaseline n hn]
    intro hnone k hk
    rw [hrequested k hk]
    exact h.baseline_latest n hn hnone k hk
  · intro n hn k hk hlt hbetween
    rw [houtput n hn, houtput k hk]
    refine h.continues n hn k hk hlt ?_
    intro j hj hkj hjn
    rw [← hrequested j hj]
    exact hbetween j hj hkj hjn

theorem extend (h : m.Versions trail) (hm : m.Extends m') : m'.Versions trail :=
  h.congr hm.next_le fun n hn => congrArg Findings.withoutText (hm.findings_eq n (h.lt n hn))

/-- The latest state is noted once more. -/
theorem again (h : m.Versions (n :: trail)) : m.Versions (n :: n :: trail) := by
  have hmem {k : Nat} : k ∈ n :: n :: trail ↔ k ∈ n :: trail := by simp
  refine
    { lt := fun k hk => h.lt k (hmem.mp hk)
      descending := List.pairwise_cons.mpr ⟨?_, h.descending⟩
      asked := fun k hk => h.asked k (hmem.mp hk)
      baseline_asked := ?_
      baseline_latest := fun j hj hnone k hk => h.baseline_latest j (hmem.mp hj) hnone k (hmem.mp hk)
      continues := ?_ }
  · intro k hk
    rcases List.mem_cons.mp hk with rfl | hk
    · exact Nat.le_refl _
    · exact (List.pairwise_cons.mp h.descending).1 k hk
  · intro k hk hnone b hb
    obtain ⟨hb', hlt, hasked⟩ := h.baseline_asked k (hmem.mp hk) hnone b hb
    exact ⟨hmem.mpr hb', hlt, hasked⟩
  · intro j hj k hk hlt hbetween
    exact h.continues j (hmem.mp hj) k (hmem.mp hk) hlt fun i hi => hbetween i (hmem.mpr hi)

/-- A state that has no output yet, and that knows the latest state that was asked. -/
theorem push (h : m.Versions trail) (hlt : n < m.next) (hnew : ∀ k ∈ trail, k < n)
    (houtput : (m.findings n).output = none)
    (hasked : ∀ b, (m.findings n).baseline = some b →
      b ∈ trail ∧ (m.findings b).isRequested = true)
    (hlatest : ∀ k ∈ trail, (m.findings k).isRequested = true →
      ∃ b, (m.findings n).baseline = some b ∧ k ≤ b) : m.Versions (n :: trail) where
  lt := List.forall_mem_cons.mpr ⟨hlt, h.lt⟩
  descending := List.pairwise_cons.mpr ⟨fun k hk => Nat.le_of_lt (hnew k hk), h.descending⟩
  asked := by
    refine List.forall_mem_cons.mpr ⟨?_, h.asked⟩
    intro hsome
    exact absurd houtput hsome
  baseline_asked := by
    refine List.forall_mem_cons.mpr ⟨?_, ?_⟩
    · intro _ b hb
      obtain ⟨hmem, hb'⟩ := hasked b hb
      exact ⟨List.mem_cons_of_mem _ hmem, hnew b hmem, hb'⟩
    · intro k hk hnone b hb
      obtain ⟨hmem, hlt, hb'⟩ := h.baseline_asked k hk hnone b hb
      exact ⟨List.mem_cons_of_mem _ hmem, hlt, hb'⟩
  baseline_latest := by
    refine List.forall_mem_cons.mpr ⟨?_, ?_⟩
    · intro _ k hk hlt
      exact hlatest k (List.mem_of_ne_of_mem (Nat.ne_of_lt hlt) hk)
    · intro j hj hnone k hk hlt
      have hkn : k ≠ n := Nat.ne_of_lt (Nat.lt_trans hlt (hnew j hj))
      exact h.baseline_latest j hj hnone k (List.mem_of_ne_of_mem hkn hk) hlt
  continues := by
    refine List.forall_mem_cons.mpr ⟨?_, ?_⟩
    · intro k hk hlt hbetween o o' ho ho'
      exact nomatch houtput.symm.trans ho'
    · intro j hj k hk hlt hbetween
      have hkn : k ≠ n := Nat.ne_of_lt (Nat.lt_trans hlt (hnew j hj))
      exact h.continues j hj k (List.mem_of_ne_of_mem hkn hk) hlt fun i hi =>
        hbetween i (List.mem_cons_of_mem _ hi)

/-- The latest state is replaced; the new one remembers it if it was asked, and what it remembers if not. -/
theorem replaced (h : m.Versions (d.serial :: trail)) (hm : m.Extends m') (hd : Replaces m m' d d') :
    m'.Versions (d'.serial :: d.serial :: trail) := by
  have hmem : d.serial ∈ d.serial :: trail := List.mem_cons_self
  have hle (k : Nat) (hk : k ∈ d.serial :: trail) : k ≤ d.serial := by
    rcases List.mem_cons.mp hk with rfl | hk
    · exact Nat.le_refl _
    · exact (List.pairwise_cons.mp h.descending).1 k hk
  have h' := h.extend hm
  have hbaseline := hd.baseline.trans (nextBaseline_extend hm (h.lt _ hmem)).symm
  rw [nextBaseline] at hbaseline
  have hpush := h'.push hd.serial_lt (fun k hk => Nat.lt_of_lt_of_le (h.lt k hk) hd.serial_ge)
    hd.output
  rw [hbaseline] at hpush
  by_cases hasked : (m'.findings d.serial).isRequested = true
  · rw [if_pos hasked] at hpush
    refine hpush ?_ ?_
    · rintro b ⟨⟩
      exact ⟨hmem, hasked⟩
    · intro k hk _
      exact ⟨d.serial, rfl, hle k hk⟩
  · rw [if_neg hasked] at hpush
    have hnone : (m'.findings d.serial).output = none :=
      Option.not_isSome_iff_eq_none.mp fun hsome =>
        hasked (h'.asked _ hmem (Option.isSome_iff_ne_none.mp hsome))
    refine hpush ?_ ?_
    · intro b hb
      obtain ⟨hb', -, hrequested⟩ := h'.baseline_asked _ hmem hnone b hb
      exact ⟨hb', hrequested⟩
    · intro k hk hrequested
      have hne : k ≠ d.serial := by
        rintro rfl
        exact hasked hrequested
      exact h'.baseline_latest _ hmem hnone k hk (Nat.lt_of_le_of_ne (hle k hk) hne) hrequested

/-- The first state of a document has no baseline. -/
theorem first (hlt : n < m.next) (hfindings : m.findings n = {}) : m.Versions [n] := by
  refine (nil m).push hlt (fun k hk => absurd hk List.not_mem_nil) (by rw [hfindings]) ?_
    fun k hk => absurd hk List.not_mem_nil
  intro b hb
  rw [hfindings] at hb
  exact nomatch hb

/-- The output that a request finds continues the one of an earlier state if none in between was asked. -/
theorem continues_answer (h : m.Versions trail) (hn : n ∈ trail)
    (ha : DocumentSnapshot.Answered m m' n) (hnone : (m.findings n).output = none) {k : Nat}
    (hk : k ∈ trail) (hlt : k < n)
    (hbetween : ∀ j ∈ trail, k < j → j < n → (m'.findings j).isRequested = false)
    {o o' : Output} (ho : (m'.findings k).output = some o) (ho' : (m'.findings n).output = some o') :
    o.Continues o' := by
  rw [ha.output_eq (Nat.ne_of_lt hlt)] at ho
  have hasked := h.asked k hk (by rw [ho]; exact Option.some_ne_none o)
  obtain ⟨b, hb, hle⟩ := h.baseline_latest n hn hnone k hk hlt hasked
  obtain ⟨hmem, hbn, hb'⟩ := h.baseline_asked n hn hnone b hb
  have hkb : k = b := by
    rcases Nat.lt_or_eq_of_le hle with hkb | hkb
    · exact nomatch (hbetween b hmem hkb hbn).symm.trans (ha.isRequested_mono hb')
    · exact hkb
  subst hkb
  rcases ha.answer with ⟨hnone', -⟩ | ⟨o₁, ho₁, hcontinues⟩
  · exact nomatch hnone'.symm.trans ho'
  · obtain rfl : o₁ = o' := Option.some.inj (ho₁.symm.trans ho')
    exact hcontinues k o hb ho

/-- A state that was asked before is asked again, or the latest one, while no later one has been asked. -/
theorem answered (h : m.Versions trail) (hn : n ∈ trail) (ha : DocumentSnapshot.Answered m m' n)
    (hnone : (m.findings n).output = none)
    (horder : (∀ k ∈ trail, k ≤ n) ∨ (m.findings n).isRequested = true ∧
      ∀ k ∈ trail, n < k → (m.findings k).isRequested = false) : m'.Versions trail := by
  refine
    { lt := fun k hk => Nat.lt_of_lt_of_le (h.lt k hk) ha.next_le
      descending := h.descending
      asked := ?_
      baseline_asked := ?_
      baseline_latest := ?_
      continues := ?_ }
  · intro k hk hsome
    by_cases hkn : k = n
    · exact hkn ▸ ha.isRequested
    · rw [ha.output_eq hkn] at hsome
      exact ha.isRequested_mono (h.asked k hk hsome)
  · intro j hj hj' b hb
    obtain ⟨hbefore, hbaseline⟩ := ha.baseline_eq hnone hj'
    rw [hbaseline] at hb
    obtain ⟨hmem, hlt, hb'⟩ := h.baseline_asked j hj hbefore b hb
    exact ⟨hmem, hlt, ha.isRequested_mono hb'⟩
  · intro j hj hj' k hk hlt hk'
    obtain ⟨hbefore, hbaseline⟩ := ha.baseline_eq hnone hj'
    rw [hbaseline]
    refine h.baseline_latest j hj hbefore k hk hlt ?_
    -- the state that is asked now is the latest one, or was asked before
    by_cases hkn : k = n
    · subst hkn
      rcases horder with hnewest | ⟨hasked, -⟩
      · exact absurd (hnewest j hj) (Nat.not_le_of_lt hlt)
      · exact hasked
    · exact (ha.isRequested_eq hkn).symm.trans hk'
  · intro j hj k hk hlt hbetween o o' ho ho'
    by_cases hjn : j = n
    · subst hjn
      exact h.continues_answer hj ha hnone hk hlt hbetween ho ho'
    · -- The output was there before the request, so no state behind the requested one has it.
      rw [ha.output_eq hjn] at ho'
      have hasked := h.asked j hj (by rw [ho']; exact Option.some_ne_none o')
      have hkn : k ≠ n := by
        rintro rfl
        rcases horder with hnewest | ⟨-, hlater⟩
        · exact absurd (hnewest j hj) (Nat.not_le_of_lt hlt)
        · exact nomatch (hlater j hj hlt).symm.trans hasked
      rw [ha.output_eq hkn] at ho
      refine h.continues j hj k hk hlt ?_ o o' ho ho'
      intro i hi hki hij
      cases hi' : (m.findings i).isRequested with
      | false => rfl
      | true => exact nomatch (hbetween i hi hki hij).symm.trans (ha.isRequested_mono hi')

/-- The answers of the states that have been asked. -/
theorem isChain_answers (h : m.Versions trail) :
    ((trail.filter fun n => (m.findings n).isRequested).map fun n => (m.findings n).output).IsChain
      fun newer older => ∀ o o', older = some o → newer = some o' → o.Continues o' := by
  rw [List.isChain_map, List.isChain_iff_forall_rel_of_append_cons_cons]
  intro n k before after hsplit o o' ho ho'
  have hsublist : (trail.filter fun n => (m.findings n).isRequested).Sublist trail :=
    List.filter_sublist
  have hsorted := List.Pairwise.sublist hsublist h.descending
  rw [hsplit] at hsorted
  obtain ⟨-, hrest, hbefore⟩ := List.pairwise_append.mp hsorted
  obtain ⟨hn', hrest⟩ := List.pairwise_cons.mp hrest
  obtain ⟨hk', -⟩ := List.pairwise_cons.mp hrest
  have hmem {j : Nat} (hj : j ∈ before ++ n :: k :: after) : j ∈ trail :=
    hsublist.subset (hsplit ▸ hj)
  have hn : n ∈ trail := hmem (List.mem_append_right _ List.mem_cons_self)
  have hk : k ∈ trail := hmem (List.mem_append_right _ (List.mem_cons_of_mem _ List.mem_cons_self))
  rcases Nat.lt_or_eq_of_le (hn' k List.mem_cons_self) with hlt | heq
  · refine h.continues n hn k hk hlt ?_ o o' ho ho'
    -- Two answers next to each other have no state between them that was asked.
    intro j hj hkj hjn
    cases hasked : (m.findings j).isRequested with
    | false => rfl
    | true =>
        have hj' : j ∈ before ++ n :: k :: after := hsplit ▸ List.mem_filter.mpr ⟨hj, hasked⟩
        rcases List.mem_append.mp hj' with hj' | hj'
        · have := hbefore j hj' n List.mem_cons_self
          omega
        · rcases List.mem_cons.mp hj' with rfl | hj'
          · exact absurd hjn (Nat.lt_irrefl _)
          · rcases List.mem_cons.mp hj' with rfl | hj'
            · exact absurd hkj (Nat.lt_irrefl _)
            · have := hk' j hj'
              omega
  · subst heq
    obtain rfl : o = o' := Option.some.inj (ho.symm.trans ho')
    exact Output.Continues.refl o

end Versions

end Memory

namespace History

variable {h : History} {project path : Text}

/-- The states that a document has been in, by serial, the latest first. -/
def trail (h : History) (project path : Text) : List Nat :=
  h.states.filterMap fun p =>
    if p.host.path = project then (p.document? path).map (·.serial) else none

/-- What came of the states of a document that have been asked for their output, the latest first. -/
def answers (h : History) (project path : Text) : List (Option Output) :=
  ((h.trail project path).filter fun n => (h.memory.findings n).isRequested).map fun n =>
    (h.memory.findings n).output

/-- The document state that is asked for its output. -/
def asked? (h : History) : Act → Option Nat
  | .change _ => none
  | .request state path _ => (h.states[state]?.bind (·.snapshot? path)).map (·.state.serial)

/-- The document is not taken away. -/
def Stays (project path : Text) (h : History) (a : Act) : Prop :=
  (h.workspace.stateOf? project path).isSome = true →
    ((h.act a).workspace.stateOf? project path).isSome = true

/-- A state of the document that has no output yet is asked only if it is the latest one, or if it was asked
    before and no later one has been. -/
def AsksInOrder (project path : Text) (h : History) (a : Act) : Prop :=
  ∀ n ∈ h.asked? a, n ∈ h.trail project path → (h.memory.findings n).output.isSome = true ∨
    (∀ k ∈ h.trail project path, k ≤ n) ∨ (h.memory.findings n).isRequested = true ∧
      ∀ k ∈ h.trail project path, n < k → (h.memory.findings k).isRequested = false

instance (project path : Text) (h : History) (a : Act) : Decidable (Stays project path h a) :=
  inferInstanceAs (Decidable (_ → _))

instance (project path : Text) (h : History) (a : Act) : Decidable (AsksInOrder project path h a) :=
  inferInstanceAs (Decidable (∀ n ∈ h.asked? a, n ∈ h.trail project path → _ ∨ _ ∨ _))

/-- Something holds whenever something happens. -/
def Always (P : History → Act → Prop) (h : History) : List Act → Prop
  | [] => True
  | a :: acts => P h a ∧ Always P (h.act a) acts

instance decidableAlways (P : History → Act → Prop) [∀ h a, Decidable (P h a)] :
    ∀ h acts, Decidable (Always P h acts)
  | _, [] => inferInstanceAs (Decidable True)
  | h, a :: acts =>
    have := decidableAlways P (h.act a) acts
    inferInstanceAs (Decidable (P h a ∧ Always P (h.act a) acts))

/-- The invariant of histories along the states of a document. -/
structure Versioned (h : History) (project path : Text) : Prop where
  tidy : h.workspace.Tidy
  current : (h.trail project path).head? = (h.workspace.stateOf? project path).map (·.serial)
  versions : h.memory.Versions (h.trail project path)

theorem versioned_start (project path : Text) : Versioned {} project path where
  tidy := Workspace.tidy_start
  current := rfl
  versions := Memory.Versions.nil _

/-- In a map that is sorted, what is taken from one path is taken once. -/
theorem filterMap_path {α β : Type} {m : PathMap α} (hm : m.Sorted) (path : Text) (f : α → Option β) :
    (m.filterMap fun e => if e.1 = path then f e.2 else none) =
      ((m.get? path).bind f).toList := by
  induction m with
  | nil => rfl
  | cons e m ih =>
      obtain ⟨q, a⟩ := e
      obtain ⟨hhead, htail⟩ := List.pairwise_cons.mp hm
      rw [PathMap.get?_cons, List.filterMap_cons]
      dsimp only
      by_cases hq : q = path
      · subst hq
        have hrest : (m.filterMap fun e => if e.1 = q then f e.2 else none) = [] := by
          refine List.filterMap_eq_nil_iff.mpr ?_
          intro e he
          exact if_neg (Ne.symm (Text.ne_of_compare_lt (hhead e he)))
        rw [if_pos rfl, if_pos rfl, hrest, Option.bind_some]
        cases f a with
        | none => rfl
        | some b => rfl
      · rw [if_neg hq, if_neg (Ne.symm hq)]
        exact ih htail

theorem trail_note {w : Workspace} (hw : w.Tidy) (h : History) (project path : Text) :
    (h.note w).trail project path =
      ((w.stateOf? project path).map (·.serial)).toList ++ h.trail project path := by
  rw [trail, note, List.filterMap_append, ← trail, PathMap.values, List.filterMap_map,
    Workspace.stateOf?, Option.map_bind]
  refine congrArg (· ++ h.trail project path) ?_
  refine Eq.trans ?_ (filterMap_path hw.sorted project fun p => (p.document? path).map (·.serial))
  refine List.filterMap_congr ?_
  intro e he
  rw [Function.comp_apply, hw.path_eq e he]

namespace Versioned

/-- A change keeps the document, replaces it or makes it. -/
theorem change (hv : h.Versioned project path) (plan : Plan)
    (hstays : Stays project path h (.change plan)) :
    (h.act (.change plan)).Versioned project path := by
  have hgoes : h.workspace.Goes (h.act (.change plan)).workspace := hv.tidy.perform plan
  have htrail : (h.act (.change plan)).trail project path = _ := trail_note hgoes.tidy h project path
  have hpasses := hgoes.passes project path
  have hversions := hv.versions
  have hcurrent := hv.current
  refine ⟨hgoes.tidy, ?_, ?_⟩
  · rw [htrail]
    cases hafter : (h.act (.change plan)).workspace.stateOf? project path with
    | some d => rfl
    | none =>
        have hbefore : h.workspace.stateOf? project path = none := by
          rw [Stays, hafter] at hstays
          exact Option.not_isSome_iff_eq_none.mp fun hsome => nomatch hstays hsome
        rw [hbefore] at hcurrent
        exact hcurrent
  · rw [htrail]
    rw [Stays] at hstays
    generalize h.workspace.stateOf? project path = before at hpasses hcurrent hstays
    generalize (h.act (.change plan)).workspace.stateOf? project path = after at hpasses hstays ⊢
    -- the trail is as it was if the document is gone, and else gets the state that it has now
    cases hpasses with
    | gone => exact hversions.extend hgoes.memory
    | kept d =>
        obtain ⟨rest, hrest⟩ := List.head?_eq_some_iff.mp hcurrent
        rw [hrest] at hversions ⊢
        exact (hversions.extend hgoes.memory).again
    | replaced hd =>
        obtain ⟨rest, hrest⟩ := List.head?_eq_some_iff.mp hcurrent
        rw [hrest] at hversions ⊢
        exact hversions.replaced hgoes.memory hd
    | first serial_ge serial_lt findings =>
        rw [List.head?_eq_none_iff.mp hcurrent]
        exact Memory.Versions.first serial_lt findings

/-- A request changes nothing but what is known about states. -/
theorem request (hv : h.Versioned project path) {state : Nat} {q : Text} {isCalledOff : Bool}
    (horder : AsksInOrder project path h (.request state q isCalledOff)) :
    (h.act (.request state q isCalledOff)).Versioned project path := by
  rw [AsksInOrder, asked?] at horder
  rw [History.act]
  cases hsnapshot : h.states[state]?.bind (·.snapshot? q) with
  | none => exact hv
  | some s =>
      rw [hsnapshot] at horder
      cases houtput : (h.memory.findings s.state.serial).output with
      | some o =>
          have hsame : (h.workspace.attempt (s.output isCalledOff)).2 = h.workspace := by
            rw [Workspace.attempt, Workspace.act,
              DocumentSnapshot.output_run_of_some houtput isCalledOff]
          dsimp only
          rw [hsame]
          exact hv
      | none =>
          have ha := DocumentSnapshot.output_answered houtput isCalledOff
          refine
            { tidy := hv.tidy.of_projects ha.next_le hv.tidy.sorted fun _ he => Or.inl he
              current := hv.current
              versions := ?_ }
          by_cases hmem : s.state.serial ∈ h.trail project path
          · refine hv.versions.answered hmem ha houtput ?_
            refine (horder s.state.serial rfl hmem).resolve_left ?_
            rw [houtput]
            exact Bool.false_ne_true
          · refine hv.versions.congr ha.next_le ?_
            intro n hn
            exact ha.others n fun heq => hmem (heq ▸ hn)

theorem act (hv : h.Versioned project path) {a : Act} (hstays : Stays project path h a)
    (horder : AsksInOrder project path h a) : (h.act a).Versioned project path := by
  cases a with
  | change plan => exact hv.change plan hstays
  | request state q isCalledOff => exact hv.request horder

theorem foldl (acts : List Act) (hv : h.Versioned project path)
    (hstays : Always (Stays project path) h acts)
    (horder : Always (AsksInOrder project path) h acts) :
    (acts.foldl History.act h).Versioned project path := by
  induction acts generalizing h with
  | nil => exact hv
  | cons a acts ih => exact ih (hv.act hstays.1 horder.1) hstays.2 horder.2

end Versioned

/-- Where the states of a document are asked in their order, two outputs with no state between them that was
    asked in vain have the same version of every text that is the same in both. -/
theorem version_eq_of_answers {acts : List Act} (hstays : Always (Stays project path) {} acts)
    (horder : Always (AsksInOrder project path) {} acts) :
    ((run acts).answers project path).IsChain fun newer older =>
      ∀ o o', older = some o → newer = some o' → ∀ language,
        o'.text language = o.text language → o'.version language = o.version language :=
  ((versioned_start project path).foldl acts hstays horder).versions.isChain_answers

/-! ## A text that comes back -/

/-- A page is changed and changed back, with an output before and after, and some requests in between. -/
def changedBack (requests : List Act) : List Act :=
  [.change fun _ => .addProject { path := "/a" },
    .change fun v => .addDocument "/a" (.new "P.cshtml" "P.cshtml") (.known ⟨"@x", v⟩),
    .request 0 "P.cshtml" false,
    .change fun _ => .changeText "/a" "P.cshtml" "@y"] ++ requests ++
  [.change fun _ => .changeText "/a" "P.cshtml" "@x",
    .request 0 "P.cshtml" false]

/-- A request is called off and made again; the HTML, which does not contain the code, keeps its version. -/
theorem version_eq_of_answers_again :
    Always (Stays "/a" "P.cshtml") {}
      (changedBack [.request 0 "P.cshtml" true, .request 0 "P.cshtml" false]) ∧
    Always (AsksInOrder "/a" "P.cshtml") {}
      (changedBack [.request 0 "P.cshtml" true, .request 0 "P.cshtml" false]) ∧
    ((run (changedBack [.request 0 "P.cshtml" true, .request 0 "P.cshtml" false])).answers
      "/a" "P.cshtml").IsChain fun newer older =>
      ∀ o o', older = some o → newer = some o' → ∀ language,
        o'.text language = o.text language → o'.version language = o.version language := by
  have hstays : Always (Stays "/a" "P.cshtml") {}
      (changedBack [.request 0 "P.cshtml" true, .request 0 "P.cshtml" false]) := by
    decide +kernel
  have horder : Always (AsksInOrder "/a" "P.cshtml") {}
      (changedBack [.request 0 "P.cshtml" true, .request 0 "P.cshtml" false]) := by
    decide +kernel
  exact ⟨hstays, horder, version_eq_of_answers hstays horder⟩

/-- The state that was asked in vain has no output, so the text that comes back gets a new version. -/
theorem version_ne_calledOff :
    Always (Stays "/a" "P.cshtml") {} (changedBack [.request 0 "P.cshtml" true]) ∧
    ¬ (((run (changedBack [.request 0 "P.cshtml" true])).answers "/a" "P.cshtml").filterMap
      id).IsChain fun newer older => ∀ language,
        newer.text language = older.text language →
          newer.version language = older.version language := by
  have hstays : Always (Stays "/a" "P.cshtml") {} (changedBack [.request 0 "P.cshtml" true]) := by
    decide +kernel
  have hchanges : ¬ ((((run (changedBack [.request 0 "P.cshtml" true])).answers
      "/a" "P.cshtml").filterMap id).map fun o => (o.text .html, o.version .html)).IsChain
        fun newer older => newer.1 = older.1 → newer.2 = older.2 := by
    decide +kernel
  refine ⟨hstays, ?_⟩
  intro hchain
  refine hchanges ((List.isChain_map _).mpr (hchain.imp ?_))
  intro newer older hkept
  exact hkept .html

end History

end RazorLang
