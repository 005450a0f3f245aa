import RazorLang.Proofs.Workspace.SettledVersions

/-!
# Versions of texts that stay the same

`Workspace.Chain` is what may happen to a document whose loader always says the same: its text is set, its
surroundings change, and its states are loaded in any order, by themselves or for an output. Main statement:
`Workspace.Chain.version_eq_iff` — two states with the same text, and no other text in between, report the
same version exactly if the version of the earlier one was settled when the state after it was made.

A change of the surroundings is no reason for another version, but it makes one out of a version that is not
settled yet (`Workspace.Chain.version_ne_importRemoved`).
-/

namespace RazorLang

open DocumentState ProjectState

/-- The change sets the text of a document or leaves it alone: it neither brings a loader for the document
    nor takes it away. -/
def Change.KeepsLoader (project path : Text) : Change → Prop
  | .removeProject q => q ≠ project
  | .removeDocument q r | .closeDocument q r _ | .changeLoader q r _ => q = project → r ≠ path
  | _ => True

namespace ProjectState

variable {m m' : Memory} {p p' : ProjectState} {path : Text} {d : DocumentState}

/-- The transition touches a document at most because its surroundings change, or sets its text. -/
def Transition.KeepsLoader (path : Text) : Transition → Prop
  | .removeDocument q | .setText q _ | .changeLoader q _ => q ≠ path
  | _ => True

namespace Tidy

/-- A change of a text makes the state with the text, and the document is not among those that are renewed. -/
theorem document?_changeText (h : p.Tidy m.next) (hd : p.document? path = some d) {text : Text}
    (hrun : (p.changeText? path text).run m = (some p', m')) :
    ∃ d' m₁, (retext text d).run m = (d', m₁) ∧ m₁.Extends m' ∧ p'.document? path = some d' := by
  have hmem : (path, d) ∈ p.documents := PathMap.mem_of_get? hd
  obtain ⟨d', m₁, hrun₁, hext₁, hd'⟩ := isReplacement_retext text d m (h.serial_lt _ hmem)
  have hset := revisions_set h.sorted hmem hd'
  obtain ⟨documents, m₂, hrun₂, hext₂, hrefreshed⟩ :=
    renewAt_refreshed (serial_lt_revised hset hext₁ h.serial_lt) (p.importersOf d.host.target)
  have hchange : (p.changeText? path text).run m =
      (some { p with serial := m₂.next, documents, version := ⟨m₂.next + 1⟩ },
        { m₂ with next := m₂.next + 1 + 1 }) := by
    show (p.changeDocument? path (retext text)).run m = _
    rw [changeDocument?, hd]
    dsimp only
    rw [Memory.run_bind, hrun₁, Memory.run_bind, hrun₂]
    rfl
  obtain ⟨hp, rfl⟩ := Prod.mk.inj (hchange.symm.trans hrun)
  obtain rfl := Option.some.inj hp
  refine ⟨d', m₁, hrun₁, hext₂.trans m₂.extends_next_twice, ?_⟩
  have hthere : (path, d') ∈ p.documents.set path d' :=
    PathMap.mem_of_get? ((PathMap.get?_set path path d' p.documents).trans (if_pos rfl))
  obtain ⟨f, hf, hrefresh⟩ := exists_of_mem_forall₂_left hrefreshed hthere
  cases hrefresh with
  | kept _ => exact (sorted_revised (revisions_of_refreshed hrefreshed)
      (sorted_revised hset h.sorted)).get?_eq_some hf
  | refreshed hrenewed _ => exact absurd hrenewed (h.indexed.notMem_of_target h.sorted hmem)

/-- What a transition that keeps the loader makes of a document. -/
theorem hands (h : p.Tidy m.next) (hd : p.document? path = some d) {t : Transition}
    (ht : t.KeepsLoader path) (hrun : (t.next? p).run m = (some p', m')) :
    ∃ d', p'.document? path = some d' ∧ Hands m m' d d' := by
  obtain ⟨hnone, -⟩ | ⟨q, m₁, hsome, hturns⟩ := h.steps t
  · exact nomatch hnone.symm.trans hrun
  obtain ⟨hq, rfl⟩ := Prod.mk.inj (hsome.symm.trans hrun)
  obtain rfl := Option.some.inj hq
  have hmem : (path, d) ∈ p.documents := PathMap.mem_of_get? hd
  -- A document that is touched only because its surroundings change.
  have hsurroundings (hnot : t ≠ .removeDocument path) (hrenews : t.Touches p path → t.Renews p path) :
      ∃ d', q.document? path = some d' ∧ Hands m m₁ d d' := by
    by_cases hrenew : t.Renews p path
    · obtain ⟨f, hf, rfl, hrefreshes⟩ := hturns.renewed _ hmem hrenew
      exact ⟨f.2, hturns.tidy.sorted.get?_eq_some hf, .refreshed hrefreshes⟩
    · obtain ⟨f, hf, hrevision⟩ := (hturns.stays _ hmem).resolve_left hnot
      cases hrevision with
      | kept _ => exact ⟨d, hturns.tidy.sorted.get?_eq_some hf, .kept⟩
      | replaced htouched _ => exact absurd (hrenews htouched) hrenew
  have hothers {r : Text} (hr : r ≠ path) (halters : t.Alters r) : t.Touches p path → t.Renews p path := by
    rw [halters.touches_iff, halters.renews_iff]
    exact fun htouched => htouched.resolve_left (Ne.symm hr)
  cases t with
  | addDocument e loader => exact hsurroundings nofun id
  | removeDocument r => exact hsurroundings (fun heq => ht (Transition.removeDocument.inj heq)) id
  | configure host => exact hsurroundings nofun id
  | discover discovery => exact hsurroundings nofun id
  | setText r value => exact hsurroundings nofun (hothers ht (.setText value))
  | changeLoader r loader => exact hsurroundings nofun (hothers ht (.changeLoader loader))
  | changeText r text =>
      by_cases hr : r = path
      · subst hr
        obtain ⟨d', m₂, hretext, hext, hd'⟩ := h.document?_changeText hd hrun
        exact ⟨d', hd', .retexted text hretext hext⟩
      · exact hsurroundings nofun (hothers hr (.changeText text))

end Tidy

end ProjectState

namespace Workspace

variable {w w' : Workspace} {project path : Text} {d : DocumentState}

namespace Tidy

/-- What a change of a project that keeps the loader makes of a document. -/
theorem hands_update (h : w.Tidy) (hd : w.stateOf? project path = some d) {q : Text} {t : Transition}
    (ht : q = project → t.KeepsLoader path) (kind : EventKind) (document : Option Text)
    (settle : ProjectState → PathSet → PathSet) :
    ∃ d', (w.update q kind document settle (t.next? ·)).2.stateOf? project path = some d' ∧
      Hands w.memory (w.update q kind document settle (t.next? ·)).2.memory d d' := by
  rw [Workspace.update]
  cases hp : w.project? q with
  | none => exact ⟨d, hd, .kept⟩
  | some p =>
      obtain ⟨htidy, -⟩ := h.project_tidy hp
      dsimp only
      by_cases hclosing : w.isClosing = true
      · rw [if_pos hclosing]
        exact ⟨d, hd, .kept⟩
      · rw [if_neg hclosing]
        rcases htidy.steps t with ⟨hrun, -⟩ | ⟨p', m', hrun, -⟩
        · rw [Workspace.act, hrun]
          exact ⟨d, hd, .kept⟩
        · rw [Workspace.act, hrun]
          dsimp only
          rw [stateOf?, project?, PathMap.get?_set]
          by_cases hq : project = q
          · subst hq
            rw [stateOf?, hp, Option.bind_some] at hd
            rw [if_pos rfl]
            exact htidy.hands hd (ht rfl) hrun
          · rw [if_neg hq]
            exact ⟨d, hd, .kept⟩

/-- What a change that keeps the loader makes of a document. -/
theorem hands_apply (h : w.Tidy) (hd : w.stateOf? project path = some d) (c : Change)
    (hc : c.KeepsLoader project path) :
    ∃ d', (w.apply c).2.stateOf? project path = some d' ∧ Hands w.memory (w.apply c).2.memory d d' := by
  -- adding and removing projects leaves the state as it is; every other change is a step of one project
  cases c with
  | openSolution => exact ⟨d, hd, .kept⟩
  | closeSolution => exact ⟨d, hd, .kept⟩
  | addProject host =>
      rw [Workspace.apply, Workspace.addProject]
      by_cases hthere : w.projects.contains host.path = true
      · rw [if_pos hthere]
        exact ⟨d, hd, .kept⟩
      · -- The project is a new one, so it is not the one that has the document.
        have hother : project ≠ host.path := by
          rintro rfl
          obtain ⟨p, hp, -⟩ := Option.bind_eq_some_iff.mp hd
          exact hthere (Option.isSome_iff_exists.mpr ⟨p, hp⟩)
        rw [if_neg hthere]
        refine ⟨d, ?_, .kept⟩
        rw [stateOf?, project?, PathMap.get?_set, if_neg hother]
        exact hd
  | removeProject q =>
      rw [Workspace.apply, Workspace.removeProject]
      cases w.project? q with
      | none => exact ⟨d, hd, .kept⟩
      | some p =>
          refine ⟨d, ?_, .kept⟩
          show ((w.projects.erase q).get? project).bind (·.document? path) = some d
          rw [PathMap.get?_erase, if_neg (Ne.symm hc)]
          exact hd
  | configureProject host => exact h.hands_update hd (t := .configure host) (fun _ => trivial) _ _ _
  | discover q discovery =>
      exact h.hands_update hd (t := .discover discovery) (fun _ => trivial) _ _ _
  | addDocument q document loader =>
      exact h.hands_update hd (t := .addDocument document loader) (fun _ => trivial) _ _ _
  | removeDocument q r => exact h.hands_update hd (t := .removeDocument r) hc _ _ _
  | openDocument q r text =>
      exact h.hands_update hd (t := .changeText r text) (fun _ => trivial) _ _ _
  | closeDocument q r loader => exact h.hands_update hd (t := .changeLoader r loader) hc _ _ _
  | changeText q r text =>
      exact h.hands_update hd (t := .changeText r text) (fun _ => trivial) _ _ _
  | changeLoader q r loader => exact h.hands_update hd (t := .changeLoader r loader) hc _ _ _

end Tidy

/-! ## What may happen to a document -/

/-- The trail with the present state of a document, unless it is there already. -/
def follow (w : Workspace) (project path : Text) (trail : Trail) : Trail :=
  match w.stateOf? project path with
  | some d => if trail.any (·.2.serial == d.serial) then trail else (w.memory, d) :: trail
  | none => trail

/-- What may happen to a document with a loader that always gives the same text and version, with the states
    that the document has been in. -/
inductive Chain (project path : Text) : Trail → Workspace → Prop where
  | start {w : Workspace} {d : DocumentState} {value : VersionedText} (hw : w.Tidy)
      (hd : w.stateOf? project path = some d) (hgives : d.loader.Gives value)
      (hlt : value.version.serial < w.memory.next)
      (hloaded : ∀ v, (w.memory.findings d.serial).loaded = some v → v = value) :
      Chain project path [(w.memory, d)] w
  /-- The text of the document is set, or anything is changed but the document itself. -/
  | change {trail : Trail} {w : Workspace} (h : Chain project path trail w) (c : Change)
      (hc : c.KeepsLoader project path) :
      Chain project path ((w.apply c).2.follow project path trail) (w.apply c).2
  /-- Texts are loaded, of states of the document in any order and of other documents. -/
  | reads {trail : Trail} {w : Workspace} {m : Memory} (h : Chain project path trail w)
      (hm : Memory.Reads trail.Has w.memory m) : Chain project path trail { w with memory := m }

namespace Chain

variable {trail : Trail} {d' x y : DocumentState} {m₁ : Memory}

/-- The invariant of chains: the latest state is the present one, and what is known about the states agrees. -/
theorem dates (h : Chain project path trail w) :
    w.Tidy ∧ w.memory.Dates trail ∧
      ∃ m d earlier, trail = (m, d) :: earlier ∧ w.stateOf? project path = some d := by
  induction h with
  | @start w d value hw hd hgives hlt hloaded =>
      refine ⟨hw, Memory.Dates.start ⟨hw.serial_lt hd, hgives.constant hlt, ?_⟩, _, d, [], rfl, hd⟩
      intro v hv
      obtain rfl := hloaded v hv
      exact ⟨hgives.text_eq.symm, hlt⟩
  | @change trail w h c hc ih =>
      obtain ⟨hw, hdates, m, d, earlier, rfl, hd⟩ := ih
      have hgoes := hw.apply c
      obtain ⟨d', hd', hhands⟩ := hw.hands_apply hd c hc
      have hsound := hdates.sound d ⟨_, List.mem_cons_self, rfl⟩
      refine ⟨hgoes.tidy, ?_⟩
      rw [follow, hd']
      dsimp only
      rcases hhands.eq_or_new hsound with rfl | hge
      · have hthere : ((m, d') :: earlier).any (·.2.serial == d'.serial) = true :=
          List.any_eq_true.mpr ⟨_, List.mem_cons_self, beq_self_eq_true d'.serial⟩
        rw [if_pos hthere]
        exact ⟨hdates.extend hgoes.memory, m, d', earlier, rfl, rfl⟩
      · have hnew : ¬ ((m, d) :: earlier).any (·.2.serial == d'.serial) = true := by
          intro hany
          obtain ⟨e, he, hserial⟩ := List.any_eq_true.mp hany
          have hlt := (hdates.sound e.2 ⟨e, he, rfl⟩).serial_lt
          rw [beq_iff_eq.mp hserial] at hlt
          exact absurd hlt (Nat.not_lt_of_le hge)
        rw [if_neg hnew]
        exact ⟨hdates.push hgoes.memory hhands hge, _, d', _, rfl, rfl⟩
  | @reads trail w m h hm ih =>
      obtain ⟨hw, hdates, m₀, d, earlier, rfl, hd⟩ := ih
      exact ⟨hw.of_projects hm.next_le hw.sorted fun _ he => Or.inl he, hdates.reads hm, m₀, d, earlier, rfl, hd⟩

/-- A change of the chain makes another state of the document. -/
theorem replaced (h : Chain project path trail w) (c : Change) (hc : c.KeepsLoader project path)
    (hd' : (w.apply c).2.stateOf? project path = some d') (hnew : ∀ e ∈ trail, e.2.serial ≠ d'.serial) :
    Chain project path (((w.apply c).2.memory, d') :: trail) (w.apply c).2 := by
  have hchange := h.change c hc
  have hnot : ¬ trail.any (·.2.serial == d'.serial) = true := by
    intro hany
    obtain ⟨e, he, hserial⟩ := List.any_eq_true.mp hany
    exact hnew e he (beq_iff_eq.mp hserial)
  rw [follow, hd'] at hchange
  dsimp only at hchange
  rw [if_neg hnot] at hchange
  exact hchange

theorem load (h : Chain project path trail w) (hd : trail.Has d) :
    Chain project path trail (w.attempt d.load).2 :=
  h.reads (Memory.Reads.refl.load hd)

/-- A request for the output of any document goes on with the chain, if its states are told apart from those
    of the document by their serials. -/
theorem output (h : Chain project path trail w) {s : DocumentSnapshot}
    (hs : ∀ x ∈ s.parts, trail.Has x ∨ ∀ d, trail.Has d → d.serial ≠ x.serial) (isCalledOff : Bool) :
    Chain project path trail (w.attempt (s.output isCalledOff)).2 :=
  h.reads (s.output_reads hs isCalledOff w.memory)

/-- Two states of the chain are loaded one after the other. -/
theorem load_both (h : Chain project path trail w) (hx : trail.Has x) (hy : trail.Has y) (hne : x ≠ y) :
    ∃ value value' w₁ w₂, w.attempt x.load = (.ok value, w₁) ∧ w₁.attempt y.load = (.ok value', w₂) ∧
      value.text = x.loader.text ∧ value'.text = y.loader.text ∧
      x.version? w₂.memory = some value.version ∧ y.version? w₂.memory = some value'.version ∧
      w₂.memory.Dates trail := by
  obtain ⟨-, hdates, -⟩ := h.dates
  obtain ⟨value, m₁, hrun, htext, hloaded, hdates₁⟩ := hdates.load hx
  obtain ⟨value', m₂, hrun', htext', hloaded', hdates₂⟩ := hdates₁.load hy
  refine ⟨value, value', { w with memory := m₁ }, { w with memory := m₂ }, ?_, ?_, htext, htext', ?_,
    version?_of_loaded hloaded', hdates₂⟩
  · rw [attempt, act, hrun]
  · rw [attempt, act, hrun']
  · refine version?_of_loaded (Eq.trans ?_ hloaded)
    have hother := y.load_others m₁ fun hserial => hne (hdates.descending.unique hx hy hserial)
    rw [hrun'] at hother
    rw [← hother]

/-- Two states with the same text, and no other text in between, report the same version exactly if the
    version of the earlier one was settled when the state after it was made; and both report the text. -/
theorem version_eq_iff (h : Chain project path trail w) (hkeeps : trail.Keeps d m₁ d')
    (hxy : x = d ∧ y = d' ∨ x = d' ∧ y = d) :
    ∃ value value' w₁ w₂, w.attempt x.load = (.ok value, w₁) ∧ w₁.attempt y.load = (.ok value', w₂) ∧
      value.text = d.loader.text ∧ value'.text = d.loader.text ∧
      (value.version = value'.version ↔ d.version? m₁ ≠ none) := by
  obtain ⟨hd, hd'⟩ := hkeeps.has
  obtain ⟨-, hdates, -⟩ := h.dates
  have hne : d ≠ d' := fun heq => Nat.lt_irrefl _ (heq ▸ hkeeps.serial_lt hdates.descending)
  have htext := hkeeps.text_eq
  -- Both orders of loading lead to memories with the same invariant, which is symmetric.
  have hsame {m : Memory} {v v' : Version} (hdates : m.Dates trail) (hv : d.version? m = some v)
      (hv' : d'.version? m = some v') : v = v' ↔ d.version? m₁ ≠ none := by
    obtain ⟨hsettled, hnew⟩ := hdates.ties d m₁ d' hkeeps
    constructor
    · rintro rfl hnone
      exact hnew hnone v hv hv'
    · intro hsome
      obtain ⟨u, hu⟩ := Option.ne_none_iff_exists'.mp hsome
      obtain ⟨hdu, hdu'⟩ := hsettled u hu
      rw [Option.some.inj (hv.symm.trans hdu), Option.some.inj (hv'.symm.trans hdu')]
  rcases hxy with ⟨rfl, rfl⟩ | ⟨rfl, rfl⟩
  · obtain ⟨value, value', w₁, w₂, hrun, hrun', hx, hy, hv, hv', hdates⟩ := h.load_both hd hd' hne
    exact ⟨value, value', w₁, w₂, hrun, hrun', hx, hy.trans htext, hsame hdates hv hv'⟩
  · obtain ⟨value, value', w₁, w₂, hrun, hrun', hx, hy, hv, hv', hdates⟩ :=
      h.load_both hd' hd (Ne.symm hne)
    exact ⟨value, value', w₁, w₂, hrun, hrun', hx.trans htext, hy,
      eq_comm.trans (hsame hdates hv' hv)⟩

end Chain

/-! ## A page whose import is removed -/

/-- The file of a page. -/
def pageFile : TextFile :=
  { key := 0, path := "Index.cshtml", reading := fun _ => .versioned ⟨"<p>@x</p>", ⟨0⟩⟩ }

/-- A project with an import and a page. -/
def withPage : Workspace :=
  [Change.addProject { path := "/a" },
    .addDocument "/a" (.new "_ViewImports.cshtml" "_ViewImports.cshtml") (.known ⟨[], ⟨0⟩⟩),
    .addDocument "/a" (.new "Index.cshtml" "Index.cshtml") (.file pageFile)].foldl
      (fun w c => (w.apply c).2) {}

/-- The page is opened with another text. -/
def openPage (w : Workspace) : Workspace := (w.apply (.openDocument "/a" "Index.cshtml" "<p>@y</p>")).2

/-- The page is loaded. -/
def loadPage (w : Workspace) : Workspace :=
  match w.stateOf? "/a" "Index.cshtml" with
  | some d => (w.attempt d.load).2
  | none => w

/-- The import is removed. -/
def removeImport (w : Workspace) : Workspace :=
  (w.apply (.removeDocument "/a" "_ViewImports.cshtml")).2

namespace Chain

theorem start_withPage : Chain "/a" "Index.cshtml"
    [(withPage.memory, ⟨5, .new "Index.cshtml" "Index.cshtml", .file pageFile⟩)] withPage := by
  have htidy : withPage.Tidy := (((tidy_start.apply _).tidy.apply _).tidy.apply _).tidy
  have hpage : withPage.stateOf? "/a" "Index.cshtml" =
      some ⟨5, .new "Index.cshtml" "Index.cshtml", .file pageFile⟩ := rfl
  have hgives : (Loader.file pageFile).Gives ⟨"<p>@x</p>", ⟨0⟩⟩ := fun _ => rfl
  have hnext : 0 < withPage.memory.next := by decide +kernel
  refine start htidy hpage hgives hnext ?_
  have hloaded : (withPage.memory.findings 5).loaded = none := by decide +kernel
  intro v hv
  exact nomatch hloaded.symm.trans hv

theorem openPage (h : Chain "/a" "Index.cshtml" trail w)
    (hd : w.openPage.stateOf? "/a" "Index.cshtml" = some d) (hnew : ∀ e ∈ trail, e.2.serial ≠ d.serial) :
    Chain "/a" "Index.cshtml" ((w.openPage.memory, d) :: trail) w.openPage :=
  h.replaced _ trivial hd hnew

theorem loadPage (h : Chain "/a" "Index.cshtml" trail w)
    (hd : w.stateOf? "/a" "Index.cshtml" = some d) (hmem : trail.Has d) :
    Chain "/a" "Index.cshtml" trail w.loadPage := by
  rw [Workspace.loadPage, hd]
  exact h.load hmem

theorem removeImport (h : Chain "/a" "Index.cshtml" trail w)
    (hd : w.removeImport.stateOf? "/a" "Index.cshtml" = some d)
    (hnew : ∀ e ∈ trail, e.2.serial ≠ d.serial) :
    Chain "/a" "Index.cshtml" ((w.removeImport.memory, d) :: trail) w.removeImport := by
  have hkeeps : Change.KeepsLoader "/a" "Index.cshtml" (.removeDocument "/a" "_ViewImports.cshtml") :=
    fun _ => by decide
  exact h.replaced _ hkeeps hd hnew

/-- The opened page has another state when the import is removed, with the same text. -/
theorem exists_keeps_removeImport (hw : w = withPage.openPage ∨ w = withPage.openPage.loadPage) :
    ∃ trail d d', Chain "/a" "Index.cshtml" trail w.removeImport ∧
      withPage.openPage.stateOf? "/a" "Index.cshtml" = some d ∧
      w.removeImport.stateOf? "/a" "Index.cshtml" = some d' ∧
      trail.Keeps d w.removeImport.memory d' := by
  have hopened : (withPage.openPage.stateOf? "/a" "Index.cshtml").map (fun d =>
      (d.serial, d.loader.text)) = some (8, ("<p>@y</p>" : Text)) := by
    decide +kernel
  have hremoved : (w.removeImport.stateOf? "/a" "Index.cshtml").map (fun d =>
      (d.loader.text, decide (8 < d.serial))) = some (("<p>@y</p>" : Text), true) := by
    rcases hw with hw | hw
    · rw [hw]
      decide +kernel
    · rw [hw]
      decide +kernel
  obtain ⟨d, hd, hopened⟩ := Option.map_eq_some_iff.mp hopened
  obtain ⟨d', hd', hremoved⟩ := Option.map_eq_some_iff.mp hremoved
  obtain ⟨hserial, htext⟩ := Prod.mk.inj hopened
  obtain ⟨htext', hlt⟩ := Prod.mk.inj hremoved
  have hlt := of_decide_eq_true hlt
  let first : Memory × DocumentState :=
    (withPage.memory, ⟨5, .new "Index.cshtml" "Index.cshtml", .file pageFile⟩)
  have hnew : ∀ e ∈ [first], e.2.serial ≠ d.serial := by
    intro e he
    rw [List.mem_singleton.mp he, hserial]
    exact Nat.ne_of_lt (by decide)
  have hnew' : ∀ e ∈ [(withPage.openPage.memory, d), first], e.2.serial ≠ d'.serial := by
    refine List.forall_mem_cons.mpr ⟨Nat.ne_of_lt (hserial.symm ▸ hlt), ?_⟩
    intro e he
    rw [List.mem_singleton.mp he]
    exact Nat.ne_of_lt (Nat.lt_trans (by decide) hlt)
  have hchain := start_withPage.openPage hd hnew
  have hloaded : Chain "/a" "Index.cshtml" [(withPage.openPage.memory, d), first] w := by
    rcases hw with hw | hw
    · rw [hw]
      exact hchain
    · rw [hw]
      exact hchain.loadPage hd ⟨_, List.mem_cons_self, rfl⟩
  exact ⟨_, d, d', hloaded.removeImport hd' hnew', hd, hd', .next (htext'.trans htext.symm)⟩

/-- The page that has been loaded before its import is removed keeps the version. -/
theorem version_eq_importRemoved :
    ∃ trail d m₁ d', Chain "/a" "Index.cshtml" trail withPage.openPage.loadPage.removeImport ∧
      trail.Keeps d m₁ d' ∧ d.version? m₁ ≠ none ∧ ∃ value value' w₁ w₂,
        withPage.openPage.loadPage.removeImport.attempt d.load = (.ok value, w₁) ∧
        w₁.attempt d'.load = (.ok value', w₂) ∧ value.version = value'.version := by
  obtain ⟨trail, d, d', hchain, hd, -, hkeeps⟩ := exists_keeps_removeImport (Or.inr rfl)
  have hsettled : (withPage.openPage.stateOf? "/a" "Index.cshtml").map (fun d =>
      (d.version? withPage.openPage.loadPage.removeImport.memory).isSome) = some true := by
    decide +kernel
  rw [hd] at hsettled
  have hsettled := Option.isSome_iff_ne_none.mp (Option.some.inj hsettled)
  obtain ⟨value, value', w₁, w₂, hrun, hrun', -, -, hversion⟩ :=
    hchain.version_eq_iff hkeeps (Or.inl ⟨rfl, rfl⟩)
  exact ⟨trail, d, _, d', hchain, hkeeps, hsettled, value, value', w₁, w₂, hrun, hrun',
    hversion.mpr hsettled⟩

/-- What two states say about their texts, one after the other. -/
def reports (w : Workspace) (d? d'? : Option DocumentState) : Option (VersionedText × VersionedText) := do
  let d ← d?
  let d' ← d'?
  match w.attempt d.load with
  | (.ok value, w') =>
    match w'.attempt d'.load with
    | (.ok value', _) => some (value, value')
    | _ => none
  | _ => none

theorem exists_of_reports {d d' : DocumentState} {value value' : VersionedText}
    (h : reports w (some d) (some d') = some (value, value')) :
    ∃ w₁ w₂, w.attempt d.load = (.ok value, w₁) ∧ w₁.attempt d'.load = (.ok value', w₂) := by
  rw [reports, Option.bind_eq_bind, Option.bind_some, Option.bind_some] at h
  split at h
  · next v w' hrun =>
      split at h
      · next v' w'' hrun' =>
          obtain ⟨rfl, rfl⟩ := Prod.mk.inj (Option.some.inj h)
          exact ⟨w', w'', hrun, hrun'⟩
      · exact nomatch h
  · exact nomatch h

/-- The page that has not been loaded before its import is removed has another version in each state,
    although its text has been set only once. -/
theorem version_ne_importRemoved :
    ∃ trail d m₁ d', Chain "/a" "Index.cshtml" trail withPage.openPage.removeImport ∧
      trail.Keeps d m₁ d' ∧ ∃ value value' w₁ w₂,
        withPage.openPage.removeImport.attempt d.load = (.ok value, w₁) ∧
        w₁.attempt d'.load = (.ok value', w₂) ∧ value.text = value'.text ∧
        value.version ≠ value'.version := by
  obtain ⟨trail, d, d', hchain, hd, hd', hkeeps⟩ := exists_keeps_removeImport (Or.inl rfl)
  have hreports : (reports withPage.openPage.removeImport
      (withPage.openPage.stateOf? "/a" "Index.cshtml")
      (withPage.openPage.removeImport.stateOf? "/a" "Index.cshtml")).any
        (fun r => r.1.text = r.2.text ∧ r.1.version ≠ r.2.version) = true := by
    decide +kernel
  rw [hd, hd'] at hreports
  obtain ⟨⟨value, value'⟩, hreports, hsame⟩ := (Option.any_eq_true _ _).mp hreports
  obtain ⟨w₁, w₂, hrun, hrun'⟩ := exists_of_reports hreports
  obtain ⟨htext, hne⟩ := of_decide_eq_true hsame
  exact ⟨trail, d, _, d', hchain, hkeeps, value, value', w₁, w₂, hrun, hrun', htext, hne⟩

end Chain

end Workspace

end RazorLang
