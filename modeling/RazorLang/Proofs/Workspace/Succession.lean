import Mathlib.Data.List.Forall2
import RazorLang.Proofs.Workspace.Loading
import RazorLang.Workspace.ProjectState

/-!
# What comes after a document

A change never touches what is known about earlier states (`Memory.Extends`). Where a document has another
state after it, `DocumentState.Becomes` says what the two have to do with each other: either the text is the
same and no new version is possible for it, or every version that is possible is new. This is what lets
versions stand for texts. A state made by the change moreover starts with the right baseline
(`DocumentState.Succeeds`).

All states that are made are made by `DocumentState.make`, so there is one lemma for them
(`DocumentState.succeeds_make`).
-/

namespace RazorLang

namespace Memory

variable {m m' m'' : Memory}

/-- A later memory in which everything about earlier document states is as it was. -/
structure Extends (m m' : Memory) : Prop where
  next_le : m.next ≤ m'.next
  findings_eq : ∀ n < m.next, m'.findings n = m.findings n

theorem Extends.refl (m : Memory) : m.Extends m := ⟨Nat.le_refl _, fun _ _ => rfl⟩

theorem Extends.trans (h : m.Extends m') (h' : m'.Extends m'') : m.Extends m'' := by
  refine ⟨Nat.le_trans h.next_le h'.next_le, ?_⟩
  intro n hn
  rw [h'.findings_eq n (Nat.lt_of_lt_of_le hn h.next_le), h.findings_eq n hn]

/-- The memory once a document state has been made about which something is known. -/
def add (m : Memory) (known : Findings) : Memory :=
  { m with
    next := m.next + 1
    findings := fun n => if n = m.next then known else m.findings n }

theorem findings_add (m : Memory) (known : Findings) : (m.add known).findings m.next = known :=
  if_pos rfl

theorem extends_add (m : Memory) (known : Findings) : m.Extends (m.add known) :=
  ⟨Nat.le_succ _, fun _ hn => if_neg (Nat.ne_of_lt hn)⟩

theorem extends_next (m : Memory) : m.Extends { m with next := m.next + 1 } :=
  ⟨Nat.le_succ _, fun _ _ => rfl⟩

/-- Two serials are handed out. -/
theorem extends_next_twice (m : Memory) : m.Extends { m with next := m.next + 1 + 1 } :=
  m.extends_next.trans (extends_next _)

end Memory

namespace DocumentState

variable {m m' m₀ m₁ : Memory} {d d' d'' : DocumentState} {v : Version}

theorem Sound.extend (hd : d.Sound m) (h : m.Extends m') : d.Sound m' := by
  refine ⟨Nat.lt_of_lt_of_le hd.serial_lt h.next_le, hd.constant.mono h.next_le, ?_⟩
  intro value hloaded
  rw [h.findings_eq _ hd.serial_lt] at hloaded
  obtain ⟨htext, hlt⟩ := hd.loaded value hloaded
  exact ⟨htext, Nat.lt_of_lt_of_le hlt h.next_le⟩

theorem MayHave.before_extend (hv : d.MayHave m' v) (hd : d.serial < m.next) (h : m.Extends m') :
    d.MayHave m v :=
  hv.earlier (congrArg Findings.loaded (h.findings_eq _ hd)) h.next_le

/-- What a document may become by a change: it keeps its text, or all its versions are new. -/
structure Becomes (m m' : Memory) (d d' : DocumentState) : Prop where
  host_eq : d'.host = d.host
  text : (d'.loader.text = d.loader.text ∧ ∀ v, d'.MayHave m' v → d.MayHave m v) ∨
    ∀ v, d'.MayHave m' v → m.next ≤ v.serial

theorem Becomes.refl (hd : d.serial < m.next) (h : m.Extends m') : Becomes m m' d d :=
  ⟨rfl, Or.inl ⟨rfl, fun _ hv => hv.before_extend hd h⟩⟩

/-- A state that is made by a change. -/
structure IsMade (m m' : Memory) (d : DocumentState) : Prop extends d.Sound m' where
  serial_ge : m.next ≤ d.serial
  isRequested : (m'.findings d.serial).isRequested = false
  output : (m'.findings d.serial).output = none

theorem IsMade.extend (hd : d.IsMade m m₁) (h : m₁.Extends m') : d.IsMade m m' where
  toSound := hd.toSound.extend h
  serial_ge := hd.serial_ge
  isRequested := by rw [h.findings_eq _ hd.serial_lt, hd.isRequested]
  output := by rw [h.findings_eq _ hd.serial_lt, hd.output]

/-- The baseline of a successor. -/
def nextBaseline (m : Memory) (d : DocumentState) : Option Nat :=
  if (m.findings d.serial).isRequested then some d.serial else (m.findings d.serial).baseline

/-- A state that is made by a change and takes the place of another one. -/
structure Succeeds (m m' : Memory) (d d' : DocumentState) : Prop
    extends Becomes m m' d d', d'.IsMade m m' where
  baseline : (m'.findings d'.serial).baseline = d.nextBaseline m

theorem Succeeds.extend (hd : Succeeds m m₁ d d') (h : m₁.Extends m') : Succeeds m m' d d' where
  host_eq := hd.host_eq
  text := by
    have hbefore (v : Version) (hv : d'.MayHave m' v) : d'.MayHave m₁ v :=
      hv.before_extend hd.serial_lt h
    rcases hd.text with ⟨htext, hv⟩ | hv
    · exact Or.inl ⟨htext, fun v hv' => hv v (hbefore v hv')⟩
    · exact Or.inr fun v hv' => hv v (hbefore v hv')
  toIsMade := hd.toIsMade.extend h
  baseline := by rw [h.findings_eq _ hd.serial_lt, hd.baseline]

/-! ## Making states -/

/-- A state of which it is not yet known whether somebody asks for its output is made. -/
theorem isMade_make (start : m₀.next ≤ m.next) {host : HostDocument} {loader : Loader}
    {loaded : Option VersionedText} {baseline : Option Nat}
    (hconstant : loader.Constant (m.next + 1))
    (hloaded : ∀ value, loaded = some value →
      value.text = loader.text ∧ value.version.serial < m.next + 1) :
    IsMade m₀ (m.add { loaded, baseline }) ⟨m.next, host, loader⟩ where
  serial_lt := Nat.lt_succ_self _
  constant := hconstant
  loaded value hvalue := by
    rw [Memory.findings_add] at hvalue
    exact hloaded value hvalue
  serial_ge := start
  isRequested := by rw [Memory.findings_add]
  output := by rw [Memory.findings_add]

/-- A state with the same document, or a text with new versions only, succeeds a state that was there when
    the change began. -/
theorem succeeds_make (start : m₀.Extends m) (hd : d.Sound m₀) {loader : Loader}
    {loaded : Option VersionedText} (hconstant : loader.Constant (m.next + 1))
    (hloaded : ∀ value, loaded = some value →
      value.text = loader.text ∧ value.version.serial < m.next + 1)
    (htext : (loader.text = d.loader.text ∧
        (∀ value, loaded = some value → d.MayHave m₀ value.version) ∧
        (loaded = none → ∀ v, loader.MayGive m.next v → d.MayHave m₀ v)) ∨
      (∀ value, loaded = some value → m₀.next ≤ value.version.serial) ∧
        (loaded = none → ∀ v, loader.MayGive m.next v → m₀.next ≤ v.serial)) :
    Succeeds m₀ (m.add { loaded, baseline := d.nextBaseline m }) d ⟨m.next, d.host, loader⟩ where
  host_eq := rfl
  toIsMade := isMade_make start.next_le hconstant hloaded
  baseline := by
    rw [Memory.findings_add, nextBaseline, nextBaseline, start.findings_eq _ hd.serial_lt]
  text := by
    have hcases (v : Version) (hv : MayHave ⟨m.next, d.host, loader⟩
        (m.add { loaded, baseline := d.nextBaseline m }) v) :
        (∃ value, loaded = some value ∧ v = value.version) ∨
          loaded = none ∧ loader.MayGive m.next v := by
      rw [MayHave, Memory.findings_add] at hv
      cases hloaded : loaded with
      | some value =>
          rw [hloaded] at hv
          exact Or.inl ⟨value, rfl, hv⟩
      | none =>
          rw [hloaded] at hv
          exact Or.inr ⟨rfl, hv.earlier (Nat.le_succ _)⟩
    rcases htext with ⟨htext, hsome, hnone⟩ | ⟨hsome, hnone⟩
    · refine Or.inl ⟨htext, ?_⟩
      intro v hv
      rcases hcases v hv with ⟨value, hvalue, rfl⟩ | ⟨hloaded, hgive⟩
      · exact hsome value hvalue
      · exact hnone hloaded v hgive
    · refine Or.inr ?_
      intro v hv
      rcases hcases v hv with ⟨value, hvalue, rfl⟩ | ⟨hloaded, hgive⟩
      · exact hsome value hvalue
      · exact hnone hloaded v hgive

/-- A known text succeeds another one with a version that this may have, or with a new one. -/
theorem succeeds_known (start : m₀.Extends m) (hd : d.Sound m₀) {value : VersionedText}
    (hlt : value.version.serial < m.next + 1)
    (h : value.text = d.loader.text ∧ d.MayHave m₀ value.version ∨ m₀.next ≤ value.version.serial) :
    Succeeds m₀ (m.add { loaded := some value, baseline := d.nextBaseline m }) d
      ⟨m.next, d.host, .known value⟩ := by
  refine succeeds_make start hd hlt ?_ (h.imp ?_ ?_)
  · rintro _ ⟨⟩
    exact ⟨rfl, hlt⟩
  · rintro ⟨htext, hmay⟩
    exact ⟨htext, fun _ hvalue => Option.some.inj hvalue ▸ hmay, nofun⟩
  · intro hge
    exact ⟨fun _ hvalue => Option.some.inj hvalue ▸ hge, nofun⟩

/-- A text that has not been read succeeds another one with versions that this may have, or with new ones. -/
theorem succeeds_unread (start : m₀.Extends m) (hd : d.Sound m₀) {loader : Loader}
    (hconstant : loader.Constant (m.next + 1))
    (h : (loader.text = d.loader.text ∧ ∀ v, loader.MayGive m.next v → d.MayHave m₀ v) ∨
      ∀ v, loader.MayGive m.next v → m₀.next ≤ v.serial) :
    Succeeds m₀ (m.add { loaded := none, baseline := d.nextBaseline m }) d ⟨m.next, d.host, loader⟩ := by
  refine succeeds_make start hd hconstant nofun (h.imp ?_ ?_)
  · rintro ⟨htext, hmay⟩
    exact ⟨htext, nofun, fun _ => hmay⟩
  · intro hge
    exact ⟨nofun, fun _ => hge⟩

/-- With the same text in other surroundings, the same versions are possible. -/
theorem renewed_run (start : m₀.Extends m) (hd : d.Sound m₀) :
    ∃ d' m', d.renewed.run m = (d', m') ∧ m.Extends m' ∧ d'.serial = m.next ∧ m'.next = m.next + 1 ∧
      Succeeds m₀ m' d d' := by
  have hfindings := start.findings_eq _ hd.serial_lt
  refine ⟨⟨m.next, d.host, d.loader⟩,
    m.add { loaded := (m.findings d.serial).loaded, baseline := d.nextBaseline m }, rfl,
    Memory.extends_add _ _, rfl, rfl, ?_⟩
  refine succeeds_make start hd (hd.constant.mono (Nat.le_succ_of_le start.next_le)) ?_
    (Or.inl ⟨rfl, ?_, ?_⟩)
  · intro value hvalue
    rw [hfindings] at hvalue
    obtain ⟨htext, hlt⟩ := hd.loaded value hvalue
    exact ⟨htext, Nat.lt_succ_of_lt (Nat.lt_of_lt_of_le hlt start.next_le)⟩
  · intro value hvalue
    rw [hfindings] at hvalue
    exact (mayHave_of_loaded hvalue).mpr rfl
  · intro hnone v hv
    rw [hfindings] at hnone
    exact (mayHave_of_not_loaded hnone).mpr (hv.earlier start.next_le)

/-- A loader with a new version is new. -/
theorem withLoader_run (start : m₀.Extends m) (hd : d.Sound m₀) {loader : Loader}
    {value : VersionedText} (hgives : loader.Gives value) (hge : m₀.next ≤ value.version.serial)
    (hlt : value.version.serial < m.next) :
    ∃ d' m', (d.withLoader loader).run m = (d', m') ∧ m.Extends m' ∧ d'.serial = m.next ∧
      Succeeds m₀ m' d d' := by
  refine ⟨⟨m.next, d.host, loader⟩, m.add { loaded := none, baseline := d.nextBaseline m }, rfl,
    Memory.extends_add _ _, rfl, ?_⟩
  refine succeeds_unread start hd (hgives.constant (Nat.lt_succ_of_lt hlt)) (Or.inr fun v hv => ?_)
  rw [hgives.eq_of_mayGive hv]
  exact hge

/-- The state with another text, which keeps its version if it is equal to the one so far. -/
def retext (text : Text) (d : DocumentState) : StateM Memory DocumentState := do
  match d.peek? (← get) with
  | some older =>
    let version ← if older.text == text then pure older.version else Memory.version
    d.withText ⟨text, version⟩
  | none => d.withLoader (.replaced d.loader text)

/-- A text that is known without reading is the document's, with a version that the document may have. -/
theorem peek?_eq_some (hd : d.Sound m) {value : VersionedText} (h : d.peek? m = some value) :
    value.text = d.loader.text ∧ value.version.serial < m.next ∧ d.MayHave m value.version := by
  cases hloaded : (m.findings d.serial).loaded with
  | some w =>
      rw [peek?, hloaded, Option.orElse_some, Option.some.injEq] at h
      subst h
      obtain ⟨htext, hlt⟩ := hd.loaded w hloaded
      exact ⟨htext, hlt, (mayHave_of_loaded hloaded).mpr rfl⟩
  | none =>
      rw [peek?, hloaded, Option.orElse_none] at h
      have hmay : d.MayHave m value.version ↔ _ := mayHave_of_not_loaded hloaded
      have hconstant := hd.constant
      rw [hmay]
      cases hloader : d.loader with
      | known w =>
          rw [hloader] at h hconstant
          obtain rfl : w = value := Option.some.inj h
          exact ⟨rfl, hconstant, rfl⟩
      | file f =>
          rw [hloader] at h
          exact nomatch h
      | replaced older text =>
          rw [hloader] at h
          exact nomatch h

theorem peek?_eq_none (h : d.peek? m = none) : (m.findings d.serial).loaded = none := by
  cases hloaded : (m.findings d.serial).loaded with
  | some w =>
      rw [peek?, hloaded] at h
      exact nomatch h
  | none => rfl

/-- With the text so far known, the new one keeps its version or gets the next one. -/
theorem retext_run_known (text : Text) {value : VersionedText} (h : d.peek? m = some value) :
    (retext text d).run m =
      if value.text = text then (d.withText ⟨text, value.version⟩).run m
      else (d.withText ⟨text, ⟨m.next⟩⟩).run { m with next := m.next + 1 } := by
  rw [retext, Memory.run_bind, show ((get : StateM Memory Memory).run m).1 = m from rfl, h]
  by_cases heq : value.text = text
  · dsimp only
    rw [if_pos (beq_iff_eq.mpr heq), if_pos heq]
    rfl
  · dsimp only
    rw [if_neg (by simpa using heq), if_neg heq]
    rfl

theorem retext_run_unknown (text : Text) (h : d.peek? m = none) :
    (retext text d).run m = (d.withLoader (.replaced d.loader text)).run m := by
  rw [retext, Memory.run_bind, show ((get : StateM Memory Memory).run m).1 = m from rfl, h]
  rfl

/-- A text that takes the place of a known one keeps its version or gets a new one; if the text so far is
    not known, this is settled when it is loaded. -/
theorem retext_run (start : m₀.Extends m) (hd : d.Sound m₀) (text : Text) :
    ∃ d' m', (retext text d).run m = (d', m') ∧ m.Extends m' ∧ m.next ≤ d'.serial ∧
      Succeeds m₀ m' d d' := by
  have hsound : d.Sound m := hd.extend start
  cases hpeek : d.peek? m with
  | some older =>
      obtain ⟨htext, hlt, hmay⟩ := peek?_eq_some hsound hpeek
      by_cases heq : older.text = text
      · refine ⟨⟨m.next, d.host, .known ⟨text, older.version⟩⟩, m.add
          { loaded := some ⟨text, older.version⟩, baseline := d.nextBaseline m },
          (retext_run_known text hpeek).trans (if_pos heq), Memory.extends_add _ _, Nat.le_refl _, ?_⟩
        have hbefore : d.MayHave m₀ older.version := hmay.before_extend hd.serial_lt start
        exact succeeds_known start hd (Nat.lt_succ_of_lt hlt) (Or.inl ⟨heq.symm.trans htext, hbefore⟩)
      · have hnext := m.extends_next
        refine ⟨⟨m.next + 1, d.host, .known ⟨text, ⟨m.next⟩⟩⟩, { m with next := m.next + 1 }.add
          { loaded := some ⟨text, ⟨m.next⟩⟩, baseline := d.nextBaseline m },
          (retext_run_known text hpeek).trans (if_neg heq), hnext.trans (Memory.extends_add _ _),
          Nat.le_succ _, ?_⟩
        exact succeeds_known (start.trans hnext) hd (Nat.lt_succ_of_lt (Nat.lt_succ_self _))
          (Or.inr start.next_le)
  | none =>
      have hloaded := peek?_eq_none hpeek
      refine ⟨⟨m.next, d.host, .replaced d.loader text⟩,
        m.add { loaded := none, baseline := d.nextBaseline m }, retext_run_unknown text hpeek,
        Memory.extends_add _ _, Nat.le_refl _, ?_⟩
      refine succeeds_unread start hd (hsound.constant.mono (Nat.le_succ _)) ?_
      -- Whether the text is another one is known in advance, since loaders are constant.
      by_cases heq : d.loader.text = text
      · refine Or.inl ⟨heq.symm, fun v hv => ?_⟩
        rw [Loader.MayGive, if_pos heq] at hv
        exact ((mayHave_of_not_loaded hloaded).mpr hv).before_extend hd.serial_lt start
      · refine Or.inr fun v hv => ?_
        rw [Loader.MayGive, if_neg heq] at hv
        exact Nat.le_trans start.next_le hv

end DocumentState

end RazorLang
