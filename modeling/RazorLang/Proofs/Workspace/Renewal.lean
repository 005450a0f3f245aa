import RazorLang.Proofs.Workspace.Imports
import RazorLang.Proofs.Workspace.Succession

/-!
# Renewing some documents of a project

A change of a project keeps some entries of its documents and puts successors in the place of the others:
each entry is related to the one that comes after it by `ProjectState.Renewal`. What the change does to
each entry is said once (`ProjectState.mapM_run`); everything else follows from the relation: paths, hosts
and order stay, and a document whose imports are all kept has the same imports.
-/

namespace RazorLang

open DocumentState

/-! ## Lists that correspond to each other -/

/-- What is in the second of two lists that correspond to each other has a counterpart in the first. -/
theorem exists_of_mem_forall₂ {α β : Type} {R : α → β → Prop} {l : List α} {l' : List β}
    (hrel : List.Forall₂ R l l') {b : β} (hb : b ∈ l') : ∃ a ∈ l, R a b := by
  induction hrel with
  | nil => exact absurd hb List.not_mem_nil
  | cons hhead htail ih =>
      rcases List.mem_cons.mp hb with rfl | hb
      · exact ⟨_, List.mem_cons_self, hhead⟩
      · obtain ⟨a, ha, hR⟩ := ih hb
        exact ⟨a, List.mem_cons_of_mem _ ha, hR⟩

theorem exists_of_mem_forall₂_left {α β : Type} {R : α → β → Prop} {l : List α} {l' : List β}
    (hrel : List.Forall₂ R l l') {a : α} (ha : a ∈ l) : ∃ b ∈ l', R a b :=
  exists_of_mem_forall₂ hrel.flip ha

theorem forall₂_comp {α : Type} {R S T : α → α → Prop} {l l₁ l' : List α} (h : List.Forall₂ R l l₁)
    (h' : List.Forall₂ S l₁ l') (hT : ∀ a b c, R a b → S b c → T a c) : List.Forall₂ T l l' := by
  induction h generalizing l' with
  | nil =>
      rw [List.forall₂_nil_left_iff] at h'
      rw [h']
      exact List.Forall₂.nil
  | cons hhead htail ih =>
      obtain ⟨c, u, hc, hu, rfl⟩ := List.forall₂_cons_left_iff.mp h'
      exact List.Forall₂.cons (hT _ _ _ hhead hc) (ih hu)

namespace ProjectState

variable {m m' m₀ m₁ : Memory} {isTouched isTouched' : Text → Prop}
  {documents documents' : PathMap DocumentState} {p q : ProjectState}

/-- What comes after an entry: the entry itself, or at a path that is touched, a successor. -/
inductive Renewal (m m' : Memory) (isTouched : Text → Prop) :
    Text × DocumentState → Text × DocumentState → Prop where
  | kept {path : Text} {d : DocumentState} (h : ¬ isTouched path) :
      Renewal m m' isTouched (path, d) (path, d)
  | renewed {path : Text} {d d' : DocumentState} (h : isTouched path) (hd : Succeeds m m' d d') :
      Renewal m m' isTouched (path, d) (path, d')

/-- The states of the documents have serials of their own. -/
def Distinct (documents : PathMap DocumentState) : Prop :=
  documents.Pairwise fun e f => e.2.serial ≠ f.2.serial

theorem Distinct.eq {e f : Text × DocumentState} (h : Distinct documents) (he : e ∈ documents)
    (hf : f ∈ documents) (hserial : e.2.serial = f.2.serial) : e = f := by
  refine List.Pairwise.forall_of_forall_of_flip (R := fun e f => e.2.serial = f.2.serial → e = f)
    (fun _ _ _ => rfl) (h.imp ?_) (h.imp ?_) he hf hserial
  · intro e f hne heq
    exact absurd heq hne
  · intro e f hne heq
    exact absurd heq.symm hne

/-- A state with a serial of its own is put among others. -/
theorem Distinct.insert {before after : PathMap DocumentState} {e : Text × DocumentState}
    (h : Distinct (before ++ after)) (he : ∀ f ∈ before ++ after, f.2.serial ≠ e.2.serial) :
    Distinct (before ++ e :: after) := by
  refine (List.pairwise_middle fun hne => Ne.symm hne).mpr (List.pairwise_cons.mpr ⟨?_, h⟩)
  intro f hf
  exact (he f hf).symm

namespace Renewal

variable {e e' f : Text × DocumentState}

theorem path_eq (h : Renewal m m' isTouched e e') : e'.1 = e.1 := by
  cases h with
  | kept h => rfl
  | renewed h hd => rfl

theorem host_eq (h : Renewal m m' isTouched e e') : e'.2.host = e.2.host := by
  cases h with
  | kept h => rfl
  | renewed h hd => exact hd.host_eq

theorem becomes (h : Renewal m m' isTouched e e') (hlt : e.2.serial < m.next) (hm : m.Extends m') :
    Becomes m m' e.2 e'.2 := by
  cases h with
  | kept h => exact Becomes.refl hlt hm
  | renewed h hd => exact hd.toBecomes

theorem extend (h : Renewal m m₁ isTouched e e') (hm : m₁.Extends m') :
    Renewal m m' isTouched e e' := by
  cases h with
  | kept h => exact kept h
  | renewed h hd => exact renewed h (hd.extend hm)

/-- Two changes one after the other that do not touch the same path. -/
theorem comp (h : Renewal m m' isTouched e f) (h' : Renewal m m' isTouched' f e')
    (hnot : ∀ path, isTouched path → ¬ isTouched' path) :
    Renewal m m' (fun path => isTouched path ∨ isTouched' path) e e' := by
  cases h with
  | kept h =>
      cases h' with
      | kept h' => exact kept fun hor => hor.elim h h'
      | renewed h' hd => exact renewed (Or.inr h') hd
  | renewed h hd =>
      cases h' with
      | kept h' => exact renewed (Or.inl h) hd
      | renewed h' hd' => exact absurd h' (hnot _ h)

end Renewal

/-! ## Changing entry after entry -/

/-- If each entry is kept or succeeded by a state of its own, so are all of them. -/
theorem mapM_run {f : Text × DocumentState → StateM Memory (Text × DocumentState)}
    (start : m₀.Extends m) (hlt : ∀ e ∈ documents, e.2.serial < m.next)
    (hf : ∀ e ∈ documents, ∀ m, m₀.Extends m → ∃ e' m', (f e).run m = (e', m') ∧ m.Extends m' ∧
      Renewal m₀ m' isTouched e e' ∧ (e' = e ∨ m.next ≤ e'.2.serial ∧ e'.2.serial < m'.next)) :
    ∃ documents' m', (documents.mapM f).run m = (documents', m') ∧ m.Extends m' ∧
      List.Forall₂ (Renewal m₀ m' isTouched) documents documents' ∧
      (∀ e ∈ documents', e ∈ documents ∨ m.next ≤ e.2.serial) ∧
      (Distinct documents → Distinct documents') := by
  -- Along the entries; the memory before each of them extends the one at the start of the change.
  induction documents generalizing m with
  | nil =>
      exact ⟨[], m, rfl, Memory.Extends.refl m, List.Forall₂.nil,
        fun e he => absurd he List.not_mem_nil, id⟩
  | cons e documents ih =>
      obtain ⟨e', m₁, hrun, hext, hrenewal, hserial⟩ := hf e List.mem_cons_self m start
      obtain ⟨documents', m', hrun', hext', hrel, hmem, hdistinct⟩ :=
        ih (start.trans hext)
          (fun e he => Nat.lt_of_lt_of_le (hlt e (List.mem_cons_of_mem _ he)) hext.next_le)
          fun e he => hf e (List.mem_cons_of_mem _ he)
      refine ⟨e' :: documents', m', ?_, hext.trans hext',
        List.Forall₂.cons (hrenewal.extend hext') hrel, ?_, ?_⟩
      · rw [List.mapM_cons, Memory.run_bind, hrun, Memory.run_bind, hrun']
        rfl
      · intro f hmem'
        rcases List.mem_cons.mp hmem' with rfl | hmem'
        · rcases hserial with rfl | ⟨hge, -⟩
          · exact Or.inl List.mem_cons_self
          · exact Or.inr hge
        · rcases hmem f hmem' with hold | hge
          · exact Or.inl (List.mem_cons_of_mem _ hold)
          · exact Or.inr (Nat.le_trans hext.next_le hge)
      · intro h
        obtain ⟨hhead, htail⟩ := List.pairwise_cons.mp h
        refine List.pairwise_cons.mpr ⟨?_, hdistinct htail⟩
        intro f hmem'
        rcases hserial with rfl | ⟨hge, hnew⟩
        · rcases hmem f hmem' with hold | hge
          · exact hhead f hold
          · have := hlt e' List.mem_cons_self
            have := hext.next_le
            omega
        · rcases hmem f hmem' with hold | hge'
          · have := hlt f (List.mem_cons_of_mem _ hold)
            omega
          · omega

theorem renewAt_run (start : m₀.Extends m) (hlt : ∀ e ∈ documents, e.2.serial < m.next)
    (paths : PathSet) (hsound : ∀ e ∈ documents, e.1 ∈ paths → e.2.Sound m₀) :
    ∃ documents' m', (renewAt documents paths).run m = (documents', m') ∧ m.Extends m' ∧
      List.Forall₂ (Renewal m₀ m' (· ∈ paths)) documents documents' ∧
      (∀ e ∈ documents', e ∈ documents ∨ m.next ≤ e.2.serial) ∧
      (Distinct documents → Distinct documents') := by
  refine mapM_run start hlt ?_
  rintro ⟨path, d⟩ he m hm
  by_cases hpath : path ∈ paths
  · obtain ⟨d', m', hrun, hext, hserial, -, hd⟩ := renewed_run hm (hsound _ he hpath)
    refine ⟨(path, d'), m', ?_, hext, Renewal.renewed hpath hd,
      Or.inr ⟨Nat.le_of_eq hserial.symm, hd.serial_lt⟩⟩
    dsimp only
    rw [if_pos (List.contains_iff_mem.mpr hpath), Memory.run_bind, hrun]
    rfl
  · refine ⟨(path, d), m, ?_, Memory.Extends.refl m, Renewal.kept hpath, Or.inl rfl⟩
    dsimp only
    rw [if_neg fun h => hpath (List.contains_iff_mem.mp h)]
    rfl

theorem renewAll_run (start : m₀.Extends m) (hlt : ∀ e ∈ documents, e.2.serial < m.next)
    (hsound : ∀ e ∈ documents, e.2.Sound m₀) :
    ∃ documents' m', (renewAll documents).run m = (documents', m') ∧ m.Extends m' ∧
      List.Forall₂ (Renewal m₀ m' fun _ => True) documents documents' ∧
      (∀ e ∈ documents', e ∈ documents ∨ m.next ≤ e.2.serial) ∧
      (Distinct documents → Distinct documents') := by
  refine mapM_run start hlt ?_
  rintro ⟨path, d⟩ he m hm
  obtain ⟨d', m', hrun, hext, hserial, -, hd⟩ := renewed_run hm (hsound _ he)
  refine ⟨(path, d'), m', ?_, hext, Renewal.renewed trivial hd,
    Or.inr ⟨Nat.le_of_eq hserial.symm, hd.serial_lt⟩⟩
  dsimp only
  rw [Memory.run_bind, hrun]
  rfl

/-! ## What stays -/

theorem hosts_renewed (hrel : List.Forall₂ (Renewal m m' isTouched) documents documents') :
    List.Forall₂ (fun e e' => e'.1 = e.1 ∧ e'.2.host = e.2.host) documents documents' :=
  hrel.imp fun _ _ h => ⟨h.path_eq, h.host_eq⟩

theorem sorted_renewed (hrel : List.Forall₂ (Renewal m m' isTouched) documents documents')
    (h : documents.Sorted) : documents'.Sorted :=
  h.congr (hrel.imp fun _ _ h => h.path_eq)

theorem path_eq_renewed (hrel : List.Forall₂ (Renewal m m' isTouched) documents documents')
    (h : ∀ e ∈ documents, e.2.host.path = e.1) : ∀ e ∈ documents', e.2.host.path = e.1 := by
  intro e' he'
  obtain ⟨e, he, hrenewal⟩ := exists_of_mem_forall₂ hrel he'
  rw [hrenewal.host_eq, hrenewal.path_eq, h e he]

/-- Where there was no document, there is none afterwards. -/
theorem get?_renewed (hrel : List.Forall₂ (Renewal m m' isTouched) documents documents') {path : Text}
    (h : documents.get? path = none) : documents'.get? path = none := by
  cases hget : documents'.get? path with
  | none => rfl
  | some d =>
      obtain ⟨e, he, hrenewal⟩ := exists_of_mem_forall₂ hrel (PathMap.mem_of_get? hget)
      have hpath : path = e.1 := hrenewal.path_eq
      exact absurd (hpath ▸ h) (PathMap.get?_ne_none he)

theorem becomes_renewed (hrel : List.Forall₂ (Renewal m m' isTouched) documents documents')
    (hlt : ∀ e ∈ documents, e.2.serial < m.next) (hm : m.Extends m') :
    List.Forall₂ (fun e e' => Becomes m m' e.2 e'.2) documents documents' :=
  ((List.forall₂_and_left _ _).mpr ⟨hlt, hrel⟩).imp fun _ _ h => h.2.becomes h.1 hm

/-- A document has the same imports if all of them are kept. -/
theorem importsOf_renewed {h : HostDocument}
    (hrel : List.Forall₂ (Renewal m m' isTouched) p.documents q.documents)
    (hpath : ∀ e ∈ p.documents, e.2.host.path = e.1)
    (hkept : ∀ i ∈ p.importsOf h, ¬ isTouched i.host.path) : q.importsOf h = p.importsOf h := by
  have himports : List.Forall₂
      (fun i i' => i'.host = i.host ∧ (¬ isTouched i.host.path → i' = i))
      (p.importsOf h) (q.importsOf h) := by
    refine importsOf_rel (fun _ _ h => h.1) ?_ h
    refine ((List.forall₂_and_left _ _).mpr ⟨hpath, hrel⟩).imp ?_
    rintro e e' ⟨hpath, hrenewal⟩
    refine ⟨hrenewal.host_eq, ?_⟩
    intro hnot
    cases hrenewal with
    | kept h => rfl
    | renewed htouched hd => exact absurd (hpath ▸ htouched) hnot
  have heq := ((List.forall₂_and_left _ _).mpr ⟨hkept, himports⟩).imp
    fun _ _ h => (h.2.2 h.1).symm
  rw [List.forall₂_eq_eq_eq] at heq
  exact heq.symm

end ProjectState

end RazorLang
