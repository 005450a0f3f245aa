import RazorLang.Proofs.Workspace.Passage
import RazorLang.Proofs.Workspace.Request

/-!
# Settled versions of texts

A text that takes the place of an equal one keeps the version. Where the older text has been loaded, this is
settled when the new state is made; otherwise when the text of the new state is loaded, and then the older
text is loaded once more for the new state alone. So the version is that of the older state if loading can
give only one version (`DocumentState.version?`), and a version of its own otherwise.

What is known along the states of a document (`Memory.Dates`) is kept where a state comes after the latest
one (`Memory.Dates.push`) and while states are loaded in any order (`Memory.Dates.reads`), which is also all
that a request for output does to texts (`DocumentSnapshot.output_reads`).
-/

namespace RazorLang

/-! ## Settled versions -/

namespace Loader

/-- The version that a constant loader always gives, unless it gives a new one each time. -/
def version? : Loader → Option Version
  | known value => some value.version
  | file f =>
    match f.reading 0 with
    | .versioned value => some value.version
    | _ => none
  | replaced older text => if older.text = text then older.version? else none

variable {l : Loader} {value : VersionedText} {bound next : Nat} {v : Version}

theorem Gives.text_eq (h : l.Gives value) : l.text = value.text := by
  cases l with
  | known v => exact congrArg VersionedText.text (show v = value from h)
  | file f => exact text_file h
  | replaced older text => exact absurd h id

theorem Constant.version?_lt (h : l.Constant bound) (hv : l.version? = some v) : v.serial < bound := by
  induction l with
  | known value =>
      obtain rfl : value.version = v := Option.some.inj hv
      exact h
  | file f =>
      obtain ⟨value, hf, hlt⟩ := h
      rw [version?, hf] at hv
      exact Option.some.inj hv ▸ hlt
  | replaced older text ih =>
      rw [version?] at hv
      exact ih h (Option.ite_none_right_eq_some.mp hv).2

/-- A version that may be given is the one that always is, or a new one. -/
theorem MayGive.settled_or_new (h : l.MayGive next v) :
    l.version? = some v ∨ l.version? = none ∧ next ≤ v.serial := by
  induction l with
  | known value => exact Or.inl (congrArg some (show v = value.version from h).symm)
  | file f =>
      obtain ⟨value, hf, rfl⟩ := h
      rw [version?, hf]
      exact Or.inl rfl
  | replaced older text ih =>
      rw [MayGive] at h
      rw [version?]
      by_cases htext : older.text = text
      · rw [if_pos htext] at h ⊢
        exact ih h
      · rw [if_neg htext] at h ⊢
        exact Or.inr ⟨rfl, h⟩

end Loader

namespace DocumentState

variable {d d' x : DocumentState} {m m' m₁ : Memory} {v : Version} {text : Text}

/-- The version of the text if it is settled: the text has been loaded, or its loader always gives this
    version. -/
def version? (m : Memory) (d : DocumentState) : Option Version :=
  match (m.findings d.serial).loaded with
  | some value => some value.version
  | none => d.loader.version?

theorem version?_of_loaded {value : VersionedText} (h : (m.findings d.serial).loaded = some value) :
    d.version? m = some value.version := by
  rw [version?, h]

theorem version?_of_not_loaded (h : (m.findings d.serial).loaded = none) :
    d.version? m = d.loader.version? := by
  rw [version?, h]

theorem version?_congr (h : (m'.findings d.serial).loaded = (m.findings d.serial).loaded) :
    d.version? m' = d.version? m := by
  rw [version?, version?, h]

theorem Sound.version?_lt (hd : d.Sound m) (hv : d.version? m = some v) : v.serial < m.next := by
  cases hloaded : (m.findings d.serial).loaded with
  | some value =>
      rw [version?_of_loaded hloaded] at hv
      exact Option.some.inj hv ▸ (hd.loaded value hloaded).2
  | none =>
      rw [version?_of_not_loaded hloaded] at hv
      exact hd.constant.version?_lt hv

theorem version?_of_peek? {value : VersionedText} (h : d.peek? m = some value) :
    d.version? m = some value.version := by
  cases hloaded : (m.findings d.serial).loaded with
  | some w =>
      rw [peek?, hloaded, Option.orElse_some] at h
      rw [version?_of_loaded hloaded, Option.some.inj h]
  | none =>
      rw [peek?, hloaded, Option.orElse_none] at h
      rw [version?_of_not_loaded hloaded]
      cases hloader : d.loader with
      | known w =>
          rw [hloader] at h
          exact congrArg (some ·.version) (Option.some.inj h)
      | file f =>
          rw [hloader] at h
          exact absurd h.symm (Option.some_ne_none value)
      | replaced older text =>
          rw [hloader] at h
          exact absurd h.symm (Option.some_ne_none value)

/-- An equal text that takes the place of another one has its version as soon as that has one. -/
theorem version?_retext (hd : d.Sound m) (hrun : (retext text d).run m = (d', m'))
    (htext : d'.loader.text = d.loader.text) : d'.version? m' = d.version? m := by
  rw [retext, Memory.run_bind, show (get : StateM Memory Memory).run m = (m, m) from rfl] at hrun
  cases hpeek : d.peek? m with
  | some older =>
      rw [hpeek] at hrun
      dsimp only at hrun
      rw [version?_of_peek? hpeek]
      by_cases heq : older.text = text
      · rw [if_pos (beq_iff_eq.mpr heq)] at hrun
        obtain ⟨rfl, rfl⟩ := Prod.mk.inj hrun
        let known : Findings := { loaded := some ⟨text, older.version⟩, baseline := d.nextBaseline m }
        have hloaded : ((m.add known).findings m.next).loaded = some ⟨text, older.version⟩ :=
          congrArg Findings.loaded (Memory.findings_add m known)
        show _ = some (⟨text, older.version⟩ : VersionedText).version
        exact version?_of_loaded hloaded
      · rw [if_neg (by simpa using heq)] at hrun
        obtain ⟨rfl, -⟩ := Prod.mk.inj hrun
        exact absurd ((peek?_eq_some hd hpeek).1.trans htext.symm) heq
  | none =>
      rw [hpeek] at hrun
      obtain ⟨rfl, rfl⟩ := Prod.mk.inj hrun
      rw [version?_of_not_loaded (congrArg Findings.loaded (Memory.findings_add m _)),
        version?_of_not_loaded (peek?_eq_none hpeek), Loader.version?]
      exact if_pos htext.symm

/-! ## What becomes of a state -/

/-- A state that comes after another one in which the text is set or stays where it is. -/
inductive Hands (m m' : Memory) (d : DocumentState) : DocumentState → Prop where
  | kept : Hands m m' d d
  | refreshed {d' : DocumentState} (h : Refreshes m m' d d') : Hands m m' d d'
  | retexted {d' : DocumentState} {m₁ : Memory} (text : Text) (hrun : (retext text d).run m = (d', m₁))
      (hext : m₁.Extends m') : Hands m m' d d'

theorem Hands.sound (h : Hands m m' d d') (hd : d.Sound m) (hext : m.Extends m') : d'.Sound m' := by
  cases h with
  | kept => exact hd.extend hext
  | refreshed h =>
      refine ⟨h.serial_lt, h.loader_eq ▸ hd.constant.mono hext.next_le, ?_⟩
      intro value hvalue
      rw [h.loaded_eq] at hvalue
      obtain ⟨htext, hlt⟩ := hd.loaded value hvalue
      exact ⟨h.loader_eq ▸ htext, Nat.lt_of_lt_of_le hlt hext.next_le⟩
  | retexted text hrun hlast =>
      obtain ⟨d₁, m₁, hrun', -, -, hsucceeds⟩ := retext_run (Memory.Extends.refl m) hd text
      obtain ⟨rfl, rfl⟩ := Prod.mk.inj (hrun.symm.trans hrun')
      exact hsucceeds.toSound.extend hlast

/-- Such a state is the state before it or a new one. -/
theorem Hands.eq_or_new (h : Hands m m' d d') (hd : d.Sound m) : d' = d ∨ m.next ≤ d'.serial := by
  cases h with
  | kept => exact Or.inl rfl
  | refreshed h => exact Or.inr h.serial_ge
  | retexted text hrun hlast =>
      obtain ⟨d₁, m₁, hrun', -, hge, -⟩ := retext_run (Memory.Extends.refl m) hd text
      obtain ⟨rfl, rfl⟩ := Prod.mk.inj (hrun.symm.trans hrun')
      exact Or.inr hge

/-- A state with the same text has the same version as soon as the state before it has one. -/
theorem Hands.version?_eq (h : Hands m m' d d') (hd : d.Sound m) (hext : m.Extends m')
    (htext : d'.loader.text = d.loader.text) : d'.version? m' = d.version? m' := by
  have hbefore : d.version? m' = d.version? m :=
    version?_congr (congrArg Findings.loaded (hext.findings_eq _ hd.serial_lt))
  cases h with
  | kept => rfl
  | refreshed h => rw [hbefore, version?, version?, h.loader_eq, h.loaded_eq]
  | retexted text hrun hlast =>
      obtain ⟨d₁, m₁, hrun', -, -, hsucceeds⟩ := retext_run (Memory.Extends.refl m) hd text
      obtain ⟨rfl, rfl⟩ := Prod.mk.inj (hrun.symm.trans hrun')
      rw [hbefore, ← version?_retext hd hrun htext]
      exact version?_congr (congrArg Findings.loaded (hlast.findings_eq _ hsucceeds.serial_lt))

end DocumentState

/-! ## Loading states in any order -/

namespace Memory

variable {docs : DocumentState → Prop} {m m' m'' : Memory}

/-- How a memory may go on while states among `docs` are loaded and nothing else is found out about their
    texts. -/
inductive Reads (docs : DocumentState → Prop) (m : Memory) : Memory → Prop where
  | refl : Reads docs m m
  | load {m' : Memory} {d : DocumentState} (h : Reads docs m m') (hd : docs d) :
      Reads docs m (d.load.run.run m').2
  | other {m' m'' : Memory} (h : Reads docs m m') (hle : m'.next ≤ m''.next)
      (hsame : ∀ d, docs d → (m''.findings d.serial).loaded = (m'.findings d.serial).loaded) :
      Reads docs m m''

theorem Reads.trans (h : Reads docs m m') (h' : Reads docs m' m'') : Reads docs m m'' := by
  induction h' with
  | refl => exact h
  | load _ hd ih => exact ih.load hd
  | other _ hle hsame ih => exact ih.other hle hsame

theorem Learns.mono {docs' : DocumentState → Prop} {asked : Nat → Prop} (h : Learns docs asked m m')
    (hdocs : ∀ d, docs d → docs' d) : Learns docs' asked m m' :=
  { h with
    of_loaded := by
      intro n value hn
      rcases h.of_loaded n value hn with hn | ⟨hnone, d, hd, hread⟩
      · exact Or.inl hn
      · exact Or.inr ⟨hnone, d, hdocs d hd, hread⟩ }

theorem Reads.next_le (h : Reads docs m m') : m.next ≤ m'.next := by
  induction h with
  | refl => exact Nat.le_refl _
  | load _ hd ih => exact Nat.le_trans ih (DocumentState.onlyLoads_load _ _).next_le
  | other _ hle hsame ih => exact Nat.le_trans ih hle

theorem reads_of_findings (hle : m.next ≤ m'.next) (hfindings : m'.findings = m.findings) :
    Reads docs m m' := by
  refine Reads.refl.other hle ?_
  intro d _
  rw [hfindings]

/-- Anything but a text may be noted. -/
theorem reads_note (f : Findings → Findings) (hf : ∀ known, (f known).loaded = known.loaded)
    (state : Nat) (m : Memory) : Reads docs m ((Memory.note state f).run m).2 := by
  refine Reads.refl.other (Nat.le_refl _) ?_
  intro d _
  rw [findings_note]
  split
  · exact hf _
  · rfl

end Memory

open Memory Attempt

namespace Attempt

variable {α β : Type} {docs : DocumentState → Prop}

theorem reads_bind {x : Attempt α} {f : α → Attempt β} (hx : ∀ m, Reads docs m (x.run.run m).2)
    (hf : ∀ a m, Reads docs m ((f a).run.run m).2) (m : Memory) :
    Reads docs m ((x >>= f).run.run m).2 := by
  have hreads := hx m
  cases hrun : x.run.run m with
  | mk r m₁ =>
      rw [hrun] at hreads
      cases r with
      | error fault =>
          rw [run_bind_error hrun]
          exact hreads
      | ok a =>
          rw [run_bind_ok hrun]
          exact hreads.trans (hf a m₁)

theorem reads_mapM {f : α → Attempt β} {l : List α}
    (hf : ∀ a ∈ l, ∀ m, Reads docs m ((f a).run.run m).2) (m : Memory) :
    Reads docs m ((l.mapM f).run.run m).2 := by
  induction l generalizing m with
  | nil => exact Reads.refl
  | cons a l ih =>
      obtain ⟨ha, hl⟩ := List.forall_mem_cons.mp hf
      rw [List.mapM_cons]
      exact reads_bind ha (fun b => reads_bind (ih hl) fun bs m => Reads.refl) m

end Attempt

/-- Loading a text says nothing yet about any state. -/
theorem Loader.load_findings (l : Loader) (m : Memory) :
    m.next ≤ (l.load.run.run m).2.next ∧ (l.load.run.run m).2.findings = m.findings := by
  refine ⟨(l.onlyLoads_load m).next_le, ?_⟩
  induction l with
  | known value => rfl
  | file f =>
      rw [load, run_lift_bind]
      cases ((Memory.read f).run m).1 <;> rfl
  | replaced older text ih =>
      rw [load, run_lift_bind]
      cases (older.load.run.run m).1 with
      | error fault => exact ih
      | ok o =>
          dsimp only
          split
          · exact ih
          · exact ih

namespace DocumentState

variable {docs : DocumentState → Prop} {asked : Nat → Prop} {d x : DocumentState} {m m' : Memory}

/-- Loading a state leaves what is known about others alone. -/
theorem load_others (d : DocumentState) (m : Memory) {n : Nat} (hn : n ≠ d.serial) :
    (d.load.run.run m).2.findings n = m.findings n := by
  rw [load, run_lift_bind, known_run]
  cases (m.findings d.serial).loaded with
  | some value => rfl
  | none =>
      obtain ⟨-, hfindings⟩ := d.loader.load_findings m
      cases hrun : d.loader.load.run.run m with
      | mk r m₁ =>
          rw [hrun] at hfindings
          cases r with
          | error fault =>
              rw [run_bind_error hrun, hfindings]
          | ok value =>
              rw [run_bind_ok hrun, run_lift_bind]
              refine (findings_note d.serial n (fun known => { known with loaded := some value }) m₁).trans ?_
              rw [if_neg hn, hfindings]

/-- A state is loaded that is one of those that are watched, or another one. -/
theorem load_reads (hd : docs d ∨ ∀ e, docs e → e.serial ≠ d.serial) (m : Memory) :
    Reads docs m (d.load.run.run m).2 := by
  rcases hd with hd | hother
  · exact Reads.refl.load hd
  · refine Reads.refl.other (d.onlyLoads_load m).next_le ?_
    intro e he
    rw [d.load_others m (hother e he)]

/-- Loading a state gives a settled version or settles a new one, for this state alone. -/
theorem version?_learn (hunique : d.serial = x.serial → d = x) (h : Learns (x = ·) asked m m') :
    d.version? m' = d.version? m ∨
      d = x ∧ d.version? m = none ∧ ∃ v, d.version? m' = some v ∧ m.next ≤ v.serial := by
  cases hloaded' : (m'.findings d.serial).loaded with
  | none =>
      have hloaded : (m.findings d.serial).loaded = none := by
        cases hloaded : (m.findings d.serial).loaded with
        | none => rfl
        | some value => exact nomatch hloaded'.symm.trans (h.loaded _ _ hloaded)
      exact Or.inl (version?_congr (hloaded'.trans hloaded.symm))
  | some value =>
      rcases h.of_loaded _ _ hloaded' with hloaded | ⟨hloaded, e, rfl, hserial, -, hgive, -⟩
      · exact Or.inl (version?_congr (hloaded'.trans hloaded.symm))
      · obtain rfl := hunique hserial.symm
        rw [version?_of_loaded hloaded', version?_of_not_loaded hloaded]
        rcases hgive.settled_or_new with hsettled | ⟨hnone, hge⟩
        · exact Or.inl hsettled.symm
        · exact Or.inr ⟨rfl, hnone, _, rfl, hge⟩

end DocumentState

namespace DocumentSnapshot

variable {docs : DocumentState → Prop}

theorem finish_findings (s : DocumentSnapshot) (input : Version) (q : Request) (m : Memory) :
    ((s.finish input q).run.run m).2.findings = m.findings := by
  rw [finish, run_lift_bind, baselineOutput_run]
  dsimp only
  cases (s.earlierOutput m).filter fun o => !o.input.isOlderThan input with
  | some good => rfl
  | none =>
      cases s.compile q with
      | error fault => rfl
      | ok c => rfl

/-- A request for the output of a document loads its state and those of its imports. -/
theorem output_reads (s : DocumentSnapshot)
    (hparts : ∀ x ∈ s.parts, docs x ∨ ∀ d, docs d → d.serial ≠ x.serial) (isCalledOff : Bool)
    (m : Memory) : Reads docs m ((s.output isCalledOff).run.run m).2 := by
  have hmake (m : Memory) : Reads docs m ((s.make isCalledOff).run.run m).2 := by
    obtain ⟨hstate, himports⟩ := List.forall_mem_cons.mp hparts
    rw [make_eq]
    refine reads_bind (DocumentState.load_reads hstate) ?_ m
    intro text
    refine reads_bind (reads_mapM fun i hi => ?_) ?_
    · exact reads_bind (DocumentState.load_reads (himports i hi)) fun _ _ => Reads.refl
    · intro imports m
      cases isCalledOff with
      | true => exact Reads.refl
      | false =>
          obtain ⟨r, m', hrun, hrests, -⟩ := s.finish_run (s.inputVersion text (imports.map Prod.snd))
            (s.request text.text imports) m
          have hfindings := s.finish_findings (s.inputVersion text (imports.map Prod.snd))
            (s.request text.text imports) m
          rw [hrun] at hfindings
          show Reads docs m ((s.finish _ _).run.run m).2
          rw [hrun]
          exact reads_of_findings hrests.next_le hfindings
  rw [output, run_lift_bind, known_run]
  cases (m.findings s.state.serial).output with
  | some o => exact Reads.refl
  | none =>
      let asks (known : Findings) : Findings := { known with isRequested := true }
      let keeps (o : Output) (known : Findings) : Findings :=
        { known with output := some o, baseline := none }
      have hasks : Reads docs m ((Memory.note s.state.serial asks).run m).2 :=
        reads_note asks (fun _ => rfl) _ m
      refine hasks.trans (reads_bind hmake ?_ _)
      intro o m
      exact reads_note (keeps o) (fun _ => rfl) s.state.serial m

end DocumentSnapshot

/-! ## The states of a document -/

/-- The states that a document has been in, the latest first, each with what was remembered when it was made. -/
abbrev Trail := List (Memory × DocumentState)

namespace Trail

variable {trail : Trail} {d d' : DocumentState} {m₁ : Memory}

/-- A state comes after `d` and has the same text, and no other text was set in between. In `m₁` the state
    after `d` was made. -/
inductive Keeps (d : DocumentState) (m₁ : Memory) : Trail → DocumentState → Prop where
  | next {d₁ : DocumentState} {m₀ : Memory} {trail : Trail} (htext : d₁.loader.text = d.loader.text) :
      Keeps d m₁ ((m₁, d₁) :: (m₀, d) :: trail) d₁
  | further {x y : DocumentState} {m m' : Memory} {trail : Trail} (h : Keeps d m₁ ((m, x) :: trail) x)
      (htext : y.loader.text = d.loader.text) : Keeps d m₁ ((m', y) :: (m, x) :: trail) y
  | earlier {d' : DocumentState} {e : Memory × DocumentState} {trail : Trail} (h : Keeps d m₁ trail d') :
      Keeps d m₁ (e :: trail) d'

/-- A state of the trail. -/
def Has (trail : Trail) (d : DocumentState) : Prop := ∃ e ∈ trail, e.2 = d

theorem Keeps.has (h : trail.Keeps d m₁ d') : trail.Has d ∧ trail.Has d' := by
  induction h with
  | next htext =>
      exact ⟨⟨_, List.mem_cons_of_mem _ List.mem_cons_self, rfl⟩, ⟨_, List.mem_cons_self, rfl⟩⟩
  | further h htext ih =>
      obtain ⟨⟨e, he, rfl⟩, -⟩ := ih
      exact ⟨⟨e, List.mem_cons_of_mem _ he, rfl⟩, ⟨_, List.mem_cons_self, rfl⟩⟩
  | earlier h ih =>
      obtain ⟨⟨e, he, rfl⟩, ⟨f, hf, rfl⟩⟩ := ih
      exact ⟨⟨e, List.mem_cons_of_mem _ he, rfl⟩, ⟨f, List.mem_cons_of_mem _ hf, rfl⟩⟩

theorem Keeps.text_eq (h : trail.Keeps d m₁ d') : d'.loader.text = d.loader.text := by
  induction h with
  | next htext => exact htext
  | further h htext ih => exact htext
  | earlier h ih => exact ih

/-- Later states have later serials. -/
def Descending (trail : Trail) : Prop :=
  trail.Pairwise fun newer older => older.2.serial < newer.2.serial

theorem Keeps.serial_lt (h : trail.Keeps d m₁ d') (hd : trail.Descending) : d.serial < d'.serial := by
  induction h with
  | next htext => exact (List.pairwise_cons.mp hd).1 _ List.mem_cons_self
  | further h htext ih =>
      obtain ⟨hhead, htail⟩ := List.pairwise_cons.mp hd
      exact Nat.lt_trans (ih htail) (hhead _ List.mem_cons_self)
  | earlier h ih => exact ih (List.pairwise_cons.mp hd).2

theorem Descending.unique (hd : trail.Descending) (h : trail.Has d) (h' : trail.Has d')
    (hserial : d.serial = d'.serial) : d = d' := by
  obtain ⟨e, he, rfl⟩ := h
  obtain ⟨f, hf, rfl⟩ := h'
  refine List.Pairwise.forall_of_forall_of_flip (R := fun e f => e.2.serial = f.2.serial → e.2 = f.2)
    (fun _ _ _ => rfl) (hd.imp ?_) (hd.imp ?_) he hf hserial
  · intro e f hlt heq
    exact absurd heq.symm (Nat.ne_of_lt hlt)
  · intro e f hlt heq
    exact absurd heq (Nat.ne_of_lt hlt)

end Trail

namespace Memory

variable {m m' m₁ : Memory} {trail : Trail} {d d' x y : DocumentState}

/-- What is known about two states, the earlier of which had the version `settled` in the end: both have this
    version, or neither has that of the other. -/
def Ties (m : Memory) (d d' : DocumentState) (settled : Option Version) : Prop :=
  (∀ v, settled = some v → d.version? m = some v ∧ d'.version? m = some v) ∧
    (settled = none → ∀ v, d.version? m = some v → d'.version? m ≠ some v)

/-- What is known along the states of a document. -/
structure Dates (m : Memory) (trail : Trail) : Prop where
  sound : ∀ d, trail.Has d → d.Sound m
  descending : trail.Descending
  ties : ∀ d m₁ d', trail.Keeps d m₁ d' → m.Ties d d' (d.version? m₁)

namespace Dates

theorem start (hd : d.Sound m) : m.Dates [(m, d)] where
  sound x hx := by
    obtain ⟨e, he, rfl⟩ := hx
    exact List.mem_singleton.mp he ▸ hd
  descending := List.pairwise_singleton _ _
  ties x m₁ d' h := by
    cases h with
    | earlier h => exact nomatch h

/-- More serials are handed out, and what is known about the texts stays. -/
theorem carry (h : m.Dates trail) (hle : m.next ≤ m'.next)
    (hsame : ∀ d, trail.Has d → (m'.findings d.serial).loaded = (m.findings d.serial).loaded) :
    m'.Dates trail where
  sound d hd := by
    obtain ⟨hserial, hconstant, hloaded⟩ := h.sound d hd
    refine ⟨Nat.lt_of_lt_of_le hserial hle, hconstant.mono hle, ?_⟩
    intro value hvalue
    rw [hsame d hd] at hvalue
    exact ⟨(hloaded value hvalue).1, Nat.lt_of_lt_of_le (hloaded value hvalue).2 hle⟩
  descending := h.descending
  ties d m₁ d' hkeeps := by
    obtain ⟨hd, hd'⟩ := hkeeps.has
    rw [Ties, DocumentState.version?_congr (hsame d hd), DocumentState.version?_congr (hsame d' hd')]
    exact h.ties d m₁ d' hkeeps

theorem truthful (h : m.Dates trail) : m.Truthful trail.Has :=
  ⟨fun _ _ hd he => h.descending.unique hd he, h.sound⟩

/-- A state of the trail is loaded: its version is settled, or it is none that another state has. -/
theorem load (h : m.Dates trail) (hx : trail.Has x) :
    ∃ value m', x.load.run.run m = (.ok value, m') ∧ value.text = x.loader.text ∧
      (m'.findings x.serial).loaded = some value ∧ m'.Dates trail := by
  have hmem (d : DocumentState) (hd : x = d) : trail.Has d := hd ▸ hx
  obtain ⟨value, m', hrun, htext, hloaded, hlearns⟩ :=
    DocumentState.load_run (fun _ => False) rfl (h.truthful.mono hmem)
  refine ⟨value, m', hrun, htext, hloaded, (h.truthful.learn (hlearns.mono hmem)).sound,
    h.descending, ?_⟩
  intro d m₁ d' hkeeps
  obtain ⟨hd, hd'⟩ := hkeeps.has
  obtain ⟨hsettled, hnew⟩ := h.ties d m₁ d' hkeeps
  have hne : d ≠ d' := fun heq => Nat.lt_irrefl _ (heq ▸ hkeeps.serial_lt h.descending)
  -- loading settles the version of one state at most, and so of one of any two
  have hafter := DocumentState.version?_learn (h.descending.unique hd hx) hlearns
  have hafter' := DocumentState.version?_learn (h.descending.unique hd' hx) hlearns
  refine ⟨?_, ?_⟩
  · intro v hv
    obtain ⟨hdv, hdv'⟩ := hsettled v hv
    refine ⟨?_, ?_⟩
    · rcases hafter with hsame | ⟨-, hnone, -⟩
      · exact hsame.trans hdv
      · exact nomatch hnone.symm.trans hdv
    · rcases hafter' with hsame | ⟨-, hnone, -⟩
      · exact hsame.trans hdv'
      · exact nomatch hnone.symm.trans hdv'
  · -- A version that is new is none that a state has had before.
    intro hnone v hdv hdv'
    rcases hafter with hsame | ⟨rfl, -, w, hw, hge⟩
    · have hlt := (h.sound d hd).version?_lt (hsame.symm.trans hdv)
      rcases hafter' with hsame' | ⟨-, -, w, hw, hge⟩
      · exact hnew hnone v (hsame.symm.trans hdv) (hsame'.symm.trans hdv')
      · obtain rfl : w = v := Option.some.inj (hw.symm.trans hdv')
        exact absurd hlt (Nat.not_lt_of_le hge)
    · rcases hafter' with hsame' | ⟨heq, -⟩
      · have hlt := (h.sound d' hd').version?_lt (hsame'.symm.trans hdv')
        obtain rfl : w = v := Option.some.inj (hw.symm.trans hdv)
        exact absurd hlt (Nat.not_lt_of_le hge)
      · exact hne heq.symm

theorem reads (h : m.Dates trail) (hm : Reads trail.Has m m') : m'.Dates trail := by
  induction hm with
  | refl => exact h
  | load _ hx ih =>
      obtain ⟨value, m', hrun, -, -, hdates⟩ := ih.load hx
      rw [hrun]
      exact hdates
  | other _ hle hsame ih => exact ih.carry hle hsame

theorem extend (h : m.Dates trail) (hext : m.Extends m') : m'.Dates trail := by
  refine h.carry hext.next_le ?_
  intro d hd
  rw [hext.findings_eq _ (h.sound d hd).serial_lt]

/-- A state comes after the latest one. -/
theorem push {m₀ : Memory} (h : m.Dates ((m₀, x) :: trail)) (hext : m.Extends m')
    (hhands : DocumentState.Hands m m' x y) (hge : m.next ≤ y.serial) :
    m'.Dates ((m', y) :: (m₀, x) :: trail) := by
  have hx : Trail.Has ((m₀, x) :: trail) x := ⟨_, List.mem_cons_self, rfl⟩
  have hextended := h.extend hext
  refine ⟨?_, ?_, ?_⟩
  · rintro d ⟨e, he, rfl⟩
    rcases List.mem_cons.mp he with rfl | he
    · exact hhands.sound (h.sound x hx) hext
    · exact hextended.sound _ ⟨e, he, rfl⟩
  · refine List.pairwise_cons.mpr ⟨?_, h.descending⟩
    intro e he
    exact Nat.lt_of_lt_of_le (h.sound _ ⟨e, he, rfl⟩).serial_lt hge
  · intro d m₁ d' hkeeps
    cases hkeeps with
    | next htext =>
        have hversion := hhands.version?_eq (h.sound _ hx) hext htext
        refine ⟨fun v hv => ⟨hv, hversion.trans hv⟩, ?_⟩
        intro hnone v hv
        exact nomatch hnone.symm.trans hv
    | further hkeeps htext =>
        have hversion := hhands.version?_eq (h.sound x hx) hext (htext.trans hkeeps.text_eq.symm)
        rw [Ties, hversion]
        exact hextended.ties d m₁ x hkeeps
    | earlier hkeeps => exact hextended.ties d m₁ d' hkeeps

end Dates

end Memory

end RazorLang
