import RazorLang.Workspace.DocumentState

/-!
# Loading texts

A loader is *constant* if what it gives does not depend on when it is asked. Its text is then known without
loading (`Loader.text`), but the version need not be: a text that takes the place of another one gets its
version when it is loaded. `Loader.MayGive` says which versions are possible from some time on.

Loading only adds to what is known. `Memory.Learns` says how a memory may grow while documents are loaded,
and `Memory.Truthful` that everything that is known about them is right. The result is `DocumentState.load_run`:
loading a document with a constant loader succeeds and gives its text.
-/

namespace RazorLang

namespace Attempt

variable {α β : Type} {x : Attempt α} {f : α → Attempt β} {m m' : Memory}

theorem run_bind_ok {a : α} (h : x.run.run m = (.ok a, m')) :
    (x >>= f).run.run m = (f a).run.run m' := by
  rw [ExceptT.run_bind, StateT.run_bind, h]
  rfl

theorem run_bind_error {fault : WorkspaceFault} (h : x.run.run m = (.error fault, m')) :
    (x >>= f).run.run m = (.error fault, m') := by
  rw [ExceptT.run_bind, StateT.run_bind, h]
  rfl

theorem run_lift_bind (s : StateM Memory α) (f : α → Attempt β) (m : Memory) :
    ((liftM s : Attempt α) >>= f).run.run m = (f (s.run m).1).run.run (s.run m).2 := rfl

end Attempt

/-! ## Loaders -/

namespace Loader

/-- The text of a constant loader. -/
def text : Loader → Text
  | known value => value.text
  | file f =>
    match f.reading 0 with
    | .versioned value => value.text
    | .fresh text => text
    | .failed _ => []
  | replaced _ text => text

/-- A loader that always gives a text with a version. -/
def Gives (value : VersionedText) : Loader → Prop
  | known v => v = value
  | file f => ∀ n, f.reading n = .versioned value
  | replaced .. => False

/-- A loader that always gives the same text, where all versions in it are below a bound. -/
def Constant (bound : Nat) : Loader → Prop
  | known value => value.version.serial < bound
  | file f => ∃ value, (∀ n, f.reading n = .versioned value) ∧ value.version.serial < bound
  | replaced older _ => older.Constant bound

/-- The versions that a constant loader may give when `next` serials or more have been handed out. -/
def MayGive (next : Nat) : Loader → Version → Prop
  | known value, v => v = value.version
  | file f, v => ∃ value, f.reading 0 = .versioned value ∧ v = value.version
  | replaced older text, v => if older.text = text then older.MayGive next v else next ≤ v.serial

variable {l : Loader} {value : VersionedText} {bound bound' next next' : Nat} {v : Version}

theorem text_file {f : TextFile} (h : ∀ n, f.reading n = .versioned value) :
    (file f).text = value.text := by
  rw [text, h]

theorem Gives.constant (h : l.Gives value) (hbound : value.version.serial < bound) :
    l.Constant bound := by
  cases l with
  | known v =>
      obtain rfl : v = value := h
      exact hbound
  | file f => exact ⟨value, h, hbound⟩
  | replaced older t => exact absurd h id

theorem Gives.eq_of_mayGive (h : l.Gives value) (hv : l.MayGive next v) : v = value.version := by
  cases l with
  | known w =>
      obtain rfl : w = value := h
      exact hv
  | file f =>
      obtain ⟨w, hw, rfl⟩ := hv
      rw [h 0] at hw
      rw [Reading.versioned.inj hw]
  | replaced older t => exact absurd h id

theorem Constant.mono (h : l.Constant bound) (hle : bound ≤ bound') : l.Constant bound' := by
  induction l with
  | known value => exact Nat.lt_of_lt_of_le h hle
  | file f =>
      obtain ⟨value, hf, hlt⟩ := h
      exact ⟨value, hf, Nat.lt_of_lt_of_le hlt hle⟩
  | replaced older text ih => exact ih h

/-- What may be given later may be given now. -/
theorem MayGive.earlier (h : l.MayGive next' v) (hle : next ≤ next') : l.MayGive next v := by
  induction l with
  | known value => exact h
  | file f => exact h
  | replaced older text ih =>
      rw [MayGive] at h ⊢
      by_cases htext : older.text = text
      · rw [if_pos htext] at h ⊢
        exact ih h
      · rw [if_neg htext] at h ⊢
        exact Nat.le_trans hle h

/-- A constant loader gives its text, and all that it changes are serials and what has been read. -/
theorem load_run {m : Memory} (h : l.Constant m.next) :
    ∃ v m', l.load.run.run m = (.ok ⟨l.text, v⟩, m') ∧ l.MayGive m.next v ∧
      v.serial < m'.next ∧ m.next ≤ m'.next ∧ m'.findings = m.findings := by
  induction l with
  | known value => exact ⟨value.version, m, rfl, rfl, h, Nat.le_refl _, rfl⟩
  | file f =>
      obtain ⟨value, hf, hlt⟩ := h
      refine ⟨value.version, ((Memory.read f).run m).2, ?_, ⟨value, hf 0, rfl⟩, hlt, Nat.le_refl _, rfl⟩
      rw [load, Attempt.run_lift_bind, text_file hf,
        show ((Memory.read f).run m).1 = .versioned value from hf _]
      rfl
  | replaced older t ih =>
      obtain ⟨v, m', hrun, hgive, hlt, hle, hfindings⟩ := ih h
      have hload : (replaced older t).load.run.run m =
          (if older.text == t then pure ⟨t, v⟩ else
            return ⟨t, ← Memory.version⟩ : Attempt VersionedText).run.run m' := by
        rw [load, Attempt.run_lift_bind, hrun]
      by_cases htext : older.text = t
      · refine ⟨v, m', ?_, ?_, hlt, hle, hfindings⟩
        · rw [hload, if_pos (beq_iff_eq.mpr htext)]
          rfl
        · rw [MayGive, if_pos htext]
          exact hgive
      · refine ⟨⟨m'.next⟩, { m' with next := m'.next + 1 }, ?_, ?_, Nat.lt_succ_self _,
          Nat.le_succ_of_le hle, hfindings⟩
        · rw [hload, if_neg (by simpa using htext)]
          rfl
        · rw [MayGive, if_neg htext]
          exact hle

end Loader

/-! ## What is known about documents -/

namespace Memory

theorem run_bind {α β : Type} (x : StateM Memory α) (f : α → StateM Memory β) (m : Memory) :
    (x >>= f).run m = (f (x.run m).1).run (x.run m).2 := rfl

theorem known_run (n : Nat) (m : Memory) : (Memory.known n).run m = (m.findings n, m) := rfl

theorem findings_note (state n : Nat) (f : Findings → Findings) (m : Memory) :
    ((Memory.note state f).run m).2.findings n =
      if n = state then f (m.findings n) else m.findings n := rfl

/-- How a memory may grow while documents among `docs` are loaded and some states are asked for output. -/
structure Learns (docs : DocumentState → Prop) (asked : Nat → Prop) (m m' : Memory) : Prop where
  next_le : m.next ≤ m'.next
  output_eq : ∀ n, (m'.findings n).output = (m.findings n).output
  baseline_eq : ∀ n, (m'.findings n).baseline = (m.findings n).baseline
  isRequested : ∀ n, (m.findings n).isRequested = true → (m'.findings n).isRequested = true
  of_isRequested : ∀ n, (m'.findings n).isRequested = true →
    (m.findings n).isRequested = true ∨ asked n
  loaded : ∀ n value, (m.findings n).loaded = some value → (m'.findings n).loaded = some value
  of_loaded : ∀ n value, (m'.findings n).loaded = some value → (m.findings n).loaded = some value ∨
    (m.findings n).loaded = none ∧ ∃ d, docs d ∧ d.serial = n ∧ value.text = d.loader.text ∧
      d.loader.MayGive m.next value.version ∧ value.version.serial < m'.next

variable {docs docs' : DocumentState → Prop} {asked : Nat → Prop} {m m' m'' : Memory}

theorem Learns.refl (m : Memory) : Learns docs asked m m where
  next_le := Nat.le_refl _
  output_eq _ := rfl
  baseline_eq _ := rfl
  isRequested _ h := h
  of_isRequested _ h := Or.inl h
  loaded _ _ h := h
  of_loaded _ _ h := Or.inl h

theorem Learns.trans (h : Learns docs asked m m') (h' : Learns docs asked m' m'') :
    Learns docs asked m m'' where
  next_le := Nat.le_trans h.next_le h'.next_le
  output_eq n := (h'.output_eq n).trans (h.output_eq n)
  baseline_eq n := (h'.baseline_eq n).trans (h.baseline_eq n)
  isRequested n hn := h'.isRequested n (h.isRequested n hn)
  of_isRequested n hn := (h'.of_isRequested n hn).elim (h.of_isRequested n) Or.inr
  loaded n value hn := h'.loaded n value (h.loaded n value hn)
  of_loaded n value hn := by
    rcases h'.of_loaded n value hn with hn | ⟨hnone, d, hd, hserial, htext, hgive, hlt⟩
    · rcases h.of_loaded n value hn with hn | ⟨hnone, d, hd, hserial, htext, hgive, hlt⟩
      · exact Or.inl hn
      · exact Or.inr ⟨hnone, d, hd, hserial, htext, hgive, Nat.lt_of_lt_of_le hlt h'.next_le⟩
    · refine Or.inr ⟨?_, d, hd, hserial, htext, hgive.earlier h.next_le, hlt⟩
      cases hloaded : (m.findings n).loaded with
      | none => rfl
      | some value =>
          rw [h.loaded n value hloaded] at hnone
          exact nomatch hnone

/-- A text is loaded and noted. -/
theorem Learns.note {d : DocumentState} {value : VersionedText} (hd : docs d)
    (hnone : (m.findings d.serial).loaded = none) (htext : value.text = d.loader.text)
    (hgive : d.loader.MayGive m.next value.version) (hlt : value.version.serial < m'.next)
    (hle : m.next ≤ m'.next) (hfindings : m'.findings = m.findings) :
    Learns docs asked m
      ((Memory.note d.serial fun known => { known with loaded := some value }).run m').2 := by
  have hother (n : Nat) : (((Memory.note d.serial fun known =>
      { known with loaded := some value }).run m').2.findings n) =
      { m.findings n with
        loaded := if n = d.serial then some value else (m.findings n).loaded } := by
    rw [findings_note, hfindings]
    by_cases hn : n = d.serial
    · rw [if_pos hn, if_pos hn]
    · rw [if_neg hn, if_neg hn]
  refine ⟨hle, ?_, ?_, ?_, ?_, ?_, ?_⟩
  · intro n
    rw [hother]
  · intro n
    rw [hother]
  · intro n h
    rw [hother]
    exact h
  · intro n h
    rw [hother] at h
    exact Or.inl h
  · intro n w h
    rw [hother]
    by_cases hn : n = d.serial
    · rw [hn, hnone] at h
      exact nomatch h
    · exact (if_neg hn).trans h
  · intro n w h
    rw [hother] at h
    by_cases hn : n = d.serial
    · obtain rfl : value = w := Option.some.inj ((if_pos hn).symm.trans h)
      exact Or.inr ⟨hn ▸ hnone, d, hd, hn.symm, htext, hgive, hlt⟩
    · exact Or.inl ((if_neg hn).symm.trans h)

theorem Learns.ask (docs : DocumentState → Prop) (m : Memory) (state : Nat) :
    Learns docs (· = state) m
      ((Memory.note state fun known => { known with isRequested := true }).run m).2 := by
  have hother (n : Nat) : (((Memory.note state fun known =>
      { known with isRequested := true }).run m).2.findings n) =
      { m.findings n with isRequested := n = state || (m.findings n).isRequested } := by
    rw [findings_note]
    by_cases hn : n = state
    · simp [hn]
    · simp [hn]
  refine ⟨Nat.le_refl _, ?_, ?_, ?_, ?_, ?_, ?_⟩
  · intro n
    rw [hother]
  · intro n
    rw [hother]
  · intro n h
    rw [hother]
    exact Bool.or_eq_true_iff.mpr (Or.inr h)
  · intro n h
    rw [hother] at h
    rcases Bool.or_eq_true_iff.mp h with h | h
    · exact Or.inr (of_decide_eq_true h)
    · exact Or.inl h
  · intro n value h
    rw [hother]
    exact h
  · intro n value h
    rw [hother] at h
    exact Or.inl h

end Memory

/-- What is known about a document is right: its loader is constant, and if a text has been loaded, it is
    the loader's. -/
structure DocumentState.Sound (m : Memory) (d : DocumentState) : Prop where
  serial_lt : d.serial < m.next
  constant : d.loader.Constant m.next
  loaded : ∀ value, (m.findings d.serial).loaded = some value →
    value.text = d.loader.text ∧ value.version.serial < m.next

namespace Memory

variable {docs docs' : DocumentState → Prop} {asked : Nat → Prop} {m m' : Memory}

/-- What is known about the documents among `docs` is right, and their serials tell them apart. -/
structure Truthful (docs : DocumentState → Prop) (m : Memory) : Prop where
  unique : ∀ d e, docs d → docs e → d.serial = e.serial → d = e
  sound : ∀ d, docs d → d.Sound m

theorem Truthful.mono (ht : m.Truthful docs) (h : ∀ d, docs' d → docs d) : m.Truthful docs' :=
  ⟨fun d e hd he => ht.unique d e (h d hd) (h e he), fun d hd => ht.sound d (h d hd)⟩

theorem Truthful.learn (ht : m.Truthful docs) (h : Learns docs asked m m') : m'.Truthful docs where
  unique := ht.unique
  sound d hd := by
    obtain ⟨hserial, hconstant, hknown⟩ := ht.sound d hd
    refine ⟨Nat.lt_of_lt_of_le hserial h.next_le, hconstant.mono h.next_le, ?_⟩
    intro value hloaded
    rcases h.of_loaded _ _ hloaded with hloaded | ⟨-, e, he, hserial, htext, -, hlt⟩
    · exact ⟨(hknown value hloaded).1, Nat.lt_of_lt_of_le (hknown value hloaded).2 h.next_le⟩
    · rw [← ht.unique e d he hd hserial]
      exact ⟨htext, hlt⟩

end Memory

namespace DocumentState

/-- The versions that the text of a document may turn out to have. -/
def MayHave (d : DocumentState) (m : Memory) (v : Version) : Prop :=
  match (m.findings d.serial).loaded with
  | some value => v = value.version
  | none => d.loader.MayGive m.next v

variable {d : DocumentState} {docs : DocumentState → Prop} {asked : Nat → Prop} {m m' : Memory}
  {v : Version}

theorem mayHave_of_loaded {value : VersionedText}
    (h : (m.findings d.serial).loaded = some value) : d.MayHave m v ↔ v = value.version := by
  rw [MayHave, h]

theorem mayHave_of_not_loaded (h : (m.findings d.serial).loaded = none) :
    d.MayHave m v ↔ d.loader.MayGive m.next v := by
  rw [MayHave, h]

/-- As time goes by, no more versions are possible of a text of which nothing more is found out. -/
theorem MayHave.earlier (hv : d.MayHave m' v)
    (hfound : (m'.findings d.serial).loaded = (m.findings d.serial).loaded) (hle : m.next ≤ m'.next) :
    d.MayHave m v := by
  rw [MayHave, hfound] at hv
  cases hloaded : (m.findings d.serial).loaded with
  | some value =>
      rw [hloaded] at hv
      exact (mayHave_of_loaded hloaded).mpr hv
  | none =>
      rw [hloaded] at hv
      exact (mayHave_of_not_loaded hloaded).mpr (Loader.MayGive.earlier hv hle)

/-- The more is known, the fewer versions are possible. -/
theorem MayHave.before_learn (hv : d.MayHave m' v) (hd : docs d) (ht : m.Truthful docs)
    (h : Memory.Learns docs asked m m') : d.MayHave m v := by
  cases hloaded : (m.findings d.serial).loaded with
  | some value =>
      rw [mayHave_of_loaded (h.loaded _ _ hloaded)] at hv
      exact (mayHave_of_loaded hloaded).mpr hv
  | none =>
      rw [mayHave_of_not_loaded hloaded]
      cases hloaded' : (m'.findings d.serial).loaded with
      | none => exact ((mayHave_of_not_loaded hloaded').mp hv).earlier h.next_le
      | some value =>
          rw [mayHave_of_loaded hloaded'] at hv
          rcases h.of_loaded _ _ hloaded' with hsome | ⟨-, e, he, hserial, -, hgive, -⟩
          · rw [hloaded] at hsome
            exact nomatch hsome
          · rw [hv, ← ht.unique e d he hd hserial]
            exact hgive

/-- A document with a constant loader can be loaded, and has the text of its loader. -/
theorem load_run (asked : Nat → Prop) (hd : docs d) (ht : m.Truthful docs) :
    ∃ value m', d.load.run.run m = (.ok value, m') ∧ value.text = d.loader.text ∧
      (m'.findings d.serial).loaded = some value ∧ Memory.Learns docs asked m m' := by
  cases hloaded : (m.findings d.serial).loaded with
  | some value =>
      refine ⟨value, m, ?_, ((ht.sound d hd).loaded value hloaded).1, hloaded, Memory.Learns.refl m⟩
      rw [load, Attempt.run_lift_bind, Memory.known_run, hloaded]
      rfl
  | none =>
      obtain ⟨v, m', hrun, hgive, hlt, hle, hfindings⟩ := Loader.load_run (ht.sound d hd).constant
      refine ⟨⟨d.loader.text, v⟩, ((Memory.note d.serial fun known =>
        { known with loaded := some ⟨d.loader.text, v⟩ }).run m').2, ?_, rfl, ?_, ?_⟩
      · rw [load, Attempt.run_lift_bind, Memory.known_run, hloaded]
        exact Attempt.run_bind_ok hrun
      · rw [Memory.findings_note, if_pos rfl]
      · exact Memory.Learns.note hd hloaded rfl hgive hlt hle hfindings

end DocumentState

end RazorLang
