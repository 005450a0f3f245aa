import RazorLang.Proofs.Workspace.Importers

/-!
# What a transition leaves alone

A transition of a project that has nothing to change makes no state. Any other one makes a state that is newer
than the one before, marks only what it changes with the new version, keeps every document that is neither
its subject nor takes imports from the place of its subject, and hands on the texts of those that do
(`ProjectState.Frame`, `ProjectState.Reachable.next?_frame`). That the new state is newer than all the old one
knows rests on an invariant: the versions of what a project is made of are never newer than its own version,
which is one that was handed out (`ProjectState.Dated`).
-/

namespace RazorLang

open DocumentState

namespace ProjectState

variable {m m' : Memory} {p p' : ProjectState} {t : Transition} {bound bound' : Nat} {q : Text}

/-- The versions of a project state, with serials below a bound. -/
structure Dated (bound : Nat) (p : ProjectState) : Prop where
  serial_lt : p.serial < bound
  version_lt : p.version.serial < bound
  documentsVersion_le : p.documentsVersion.serial ≤ p.version.serial
  configurationVersion_le : p.configurationVersion.serial ≤ p.version.serial
  discoveryVersion_le : p.discoveryVersion.serial ≤ p.version.serial

theorem Dated.mono (h : p.Dated bound) (hle : bound ≤ bound') : p.Dated bound' :=
  { h with
    serial_lt := Nat.lt_of_lt_of_le h.serial_lt hle
    version_lt := Nat.lt_of_lt_of_le h.version_lt hle }

/-- What a transition makes of a project, for those who hold the state before. -/
structure Frame (m m' : Memory) (p p' : ProjectState) (t : Transition) : Prop where
  /-- What is known about the states there were stays known, and nothing else is. -/
  findings_eq : ∀ serial < m.next, m'.findings serial = m.findings serial
  isOther : p'.serial ≠ p.serial
  isNewer : p.version.isOlderThan p'.version = true
  documentsVersion : p'.documentsVersion = if t.restocks then p'.version else p.documentsVersion
  configurationVersion :
    p'.configurationVersion = if t.configures then p'.version else p.configurationVersion
  discoveryVersion : p'.discoveryVersion = if t.discovers then p'.version else p.discoveryVersion
  kept : ∀ q, t.subject? ≠ some q → ¬ t.Renews p q → p'.document? q = p.document? q
  renewed : ∀ q d, p.document? q = some d → t.Renews p q →
    ∃ d', p'.document? q = some d' ∧ d'.serial ≠ d.serial ∧ d'.host = d.host ∧ d'.loader = d.loader ∧
      (m'.findings d'.serial).loaded = (m.findings d.serial).loaded

namespace Transition

/-- Where there is nothing to change, no state is made and nothing is handed out. -/
theorem IsIdle.next?_run (h : t.IsIdle p) (m : Memory) : (t.next? p).run m = (none, m) := by
  cases t with
  | addDocument d loader =>
      have hcontains : p.documents.contains d.path = true := by
        rw [PathMap.contains, Option.isSome_iff_ne_none]
        exact h
      rw [next?, addDocument?, if_pos hcontains]
      rfl
  | removeDocument path =>
      rw [next?, removeDocument?, show p.document? path = none from h]
      rfl
  | setText path value =>
      rw [next?, changeDocument?, show p.document? path = none from h]
      rfl
  | changeText path text =>
      rw [next?, changeText?, changeDocument?, show p.document? path = none from h]
      rfl
  | changeLoader path loader =>
      rw [next?, changeLoader?, changeDocument?, show p.document? path = none from h]
      rfl
  | configure host =>
      rw [next?, configure?, if_pos (show p.host = host from h)]
      rfl
  | discover discovery =>
      rw [next?, discover?, if_pos (show p.discovery = discovery from h)]
      rfl

/-- What a transition makes anew is its subject, or has another one for its surroundings. -/
theorem renews_of_touches (h : t.Touches p q) (hne : t.subject? ≠ some q) : t.Renews p q := by
  cases t with
  | addDocument _ _ | removeDocument _ | configure _ | discover _ => exact h
  | setText _ _ | changeText _ _ | changeLoader _ _ =>
      refine h.resolve_left ?_
      rintro rfl
      exact hne rfl

end Transition

/-- The new version is handed out after all that the old state knows, so it bounds what is kept of them. -/
theorem Marks.dated (h : Marks m m' p p' t) (hp : p.Dated m.next) : p'.Dated m'.next := by
  have hversion : p.version.serial ≤ p'.version.serial :=
    Nat.le_of_lt (Nat.lt_of_lt_of_le hp.version_lt h.version_ge)
  constructor
  · exact h.serial_lt
  · exact h.version_lt
  · rw [h.documentsVersion]
    split
    · exact Nat.le_refl _
    · exact Nat.le_trans hp.documentsVersion_le hversion
  · rw [h.configurationVersion]
    split
    · exact Nat.le_refl _
    · exact Nat.le_trans hp.configurationVersion_le hversion
  · rw [h.discoveryVersion]
    split
    · exact Nat.le_refl _
    · exact Nat.le_trans hp.discoveryVersion_le hversion

/-- A document that a transition neither concerns nor renews is the very same afterwards, also if it is not
    there. -/
theorem Turns.document?_eq (h : Turns m m' p p' t) (hsubject : t.subject? ≠ some q)
    (hrenews : ¬ t.Renews p q) : p'.document? q = p.document? q := by
  have huntouched : ¬ t.Touches p q := by
    intro htouches
    exact hrenews (Transition.renews_of_touches htouches hsubject)
  cases hget : p.document? q with
  | none =>
      -- A document that is there afterwards was there before, or is the subject.
      cases hget' : p'.document? q with
      | none => rfl
      | some d =>
          rcases h.origin _ (PathMap.mem_of_get? hget') with ⟨e, he, hrevision⟩ | hfirst
          · have hpath : q = e.1 := hrevision.path_eq
            exact absurd (hpath ▸ hget) (PathMap.get?_ne_none he)
          · exact absurd hfirst.subject_eq hsubject
  | some d =>
      rcases h.stays _ (PathMap.mem_of_get? hget) with hremove | ⟨f, hf, hrevision⟩
      · rw [hremove] at hsubject
        exact absurd rfl hsubject
      · cases hrevision with
        | kept _ => exact h.tidy.sorted.get?_eq_some hf
        | replaced htouched _ => exact absurd htouched huntouched

/-- A document of which only the surroundings change has another state, with the text where it was. -/
theorem Turns.exists_refreshes (h : Turns m m' p p' t) {d : DocumentState}
    (hd : p.document? q = some d) (hrenews : t.Renews p q) :
    ∃ d', p'.document? q = some d' ∧ Refreshes m m' d d' := by
  obtain ⟨f, hf, hpath, hrefreshes⟩ := h.renewed _ (PathMap.mem_of_get? hd) hrenews
  refine ⟨f.2, ?_, hrefreshes⟩
  rw [← show f.1 = q from hpath]
  exact h.tidy.sorted.get?_eq_some hf

theorem Turns.frame (h : Turns m m' p p' t) (hdated : p.Dated m.next) (htidy : p.Tidy m.next) :
    Frame m m' p p' t where
  findings_eq := h.memory.findings_eq
  isOther := by
    intro heq
    exact Nat.not_lt_of_le h.marks.serial_ge (heq ▸ hdated.serial_lt)
  isNewer := by
    rw [Version.isOlderThan, decide_eq_true_iff]
    exact Nat.lt_of_lt_of_le hdated.version_lt h.marks.version_ge
  documentsVersion := h.marks.documentsVersion
  configurationVersion := h.marks.configurationVersion
  discoveryVersion := h.marks.discoveryVersion
  kept q hsubject hrenews := h.document?_eq hsubject hrenews
  renewed q d hd hrenews := by
    obtain ⟨d', hd', hrefreshes⟩ := h.exists_refreshes hd hrenews
    refine ⟨d', hd', ?_, hrefreshes.host_eq, hrefreshes.loader_eq, hrefreshes.loaded_eq⟩
    have hlt : d.serial < m.next := htidy.serial_lt _ (PathMap.mem_of_get? hd)
    exact (Nat.ne_of_lt (Nat.lt_of_lt_of_le hlt hrefreshes.serial_ge)).symm

namespace Reachable

/-- The versions of what a project is made of are never newer than its own version. -/
theorem dated (h : Reachable m p) : p.Dated m.next := by
  induction h with
  | start m host discovery =>
      exact
        { serial_lt := Nat.lt_succ_of_lt (Nat.lt_succ_self _)
          version_lt := Nat.lt_succ_self _
          documentsVersion_le := Nat.le_refl _
          configurationVersion_le := Nat.le_refl _
          discoveryVersion_le := Nat.le_refl _ }
  | later h hle ih => exact ih.mono hle
  | step h t hrun ih =>
      rcases h.tidy.steps t with ⟨hnone, -⟩ | ⟨p', m', hsome, hturns⟩
      · rw [hnone] at hrun
        exact nomatch hrun
      · rw [hsome] at hrun
        obtain ⟨hp, rfl⟩ := Prod.mk.inj hrun
        obtain rfl := Option.some.inj hp
        exact hturns.marks.dated ih

/-- A transition with nothing to change makes no state, and any other one a newer state that differs from the
    one before only where it must. -/
theorem next?_frame (h : Reachable m p) (t : Transition) :
    p.Dated m.next ∧
      (t.IsIdle p ∧ (t.next? p).run m = (none, m) ∨
        ¬ t.IsIdle p ∧ ∃ p' m', (t.next? p).run m = (some p', m') ∧ Frame m m' p p' t ∧
          p'.Dated m'.next) := by
  refine ⟨h.dated, ?_⟩
  by_cases hidle : t.IsIdle p
  · exact Or.inl ⟨hidle, hidle.next?_run m⟩
  · obtain ⟨p', m', hrun, hturns⟩ := h.tidy.turns hidle
    exact Or.inr ⟨hidle, p', m', hrun, hturns.frame h.dated h.tidy, hturns.marks.dated h.dated⟩

/-- A page takes imports from the document whose text is changed, so it is made anew with its own text. -/
theorem next?_frame_changedImport :
    ∃ m p m' p', Reachable m p ∧ ("P.cshtml" : Text) ∈ p.importersOf "_ViewImports.cshtml" ∧
      (p.changeText? "_ViewImports.cshtml" "@using A").run m = (some p', m') ∧
      Frame m m' p p' (.changeText "_ViewImports.cshtml" "@using A") := by
  have h := reachable_grown ["_ViewImports.cshtml", "P.cshtml"] "Q.cshtml"
  have hthere : ((grown ["_ViewImports.cshtml", "P.cshtml"] "Q.cshtml").1.document?
      "_ViewImports.cshtml").isSome = true := by
    decide +kernel
  rcases (next?_frame h (.changeText "_ViewImports.cshtml" "@using A")).2 with
    ⟨hidle, -⟩ | ⟨-, p', m', hrun, hframe, -⟩
  · exact absurd hidle (Option.isSome_iff_ne_none.mp hthere)
  · exact ⟨_, _, m', p', h, by decide +kernel, hrun, hframe⟩

end Reachable

end ProjectState

end RazorLang
