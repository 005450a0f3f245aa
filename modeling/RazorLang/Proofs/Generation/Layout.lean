import Mathlib.Data.List.Chain
import RazorLang.Generation.Printer
import RazorLang.Proofs.Source.Lines
import RazorLang.Proofs.Text.Bytes

/-!
# Printed code and its mappings

What a list of instructions prints, as far as mappings see it. Main statements:

* `exists_copy_of_mem_mappings` — a mapping links a span of the source to the place where the text that was
  copied from there stands in the code.
* `isChain_mappingsFrom` — if between any two chunks that are copied there is one that is not, then there is a
  byte between any two mappings.

Whether two copies are kept apart is decided list by list: `Print.Moves` says of a list that it keeps its
copies apart from each other and from whatever stands before it, and how far it indents what follows.
-/

namespace RazorLang

open Text

/-! ## Chunks -/

/-- Where the printer stands behind some instructions. -/
def stateBehind (o : Options) (s : PrintState) : List Print → PrintState
  | [] => s
  | p :: rest => stateBehind o (s.step o p).1 rest

theorem stateBehind_append (o : Options) (s : PrintState) (ps qs : List Print) :
    stateBehind o s (ps ++ qs) = stateBehind o (stateBehind o s ps) qs := by
  induction ps generalizing s with
  | nil => rfl
  | cons p ps ih => exact ih _

theorem layout_append (o : Options) (s : PrintState) (ps qs : List Print) :
    layout o s (ps ++ qs) = layout o s ps ++ layout o (stateBehind o s ps) qs := by
  induction ps generalizing s with
  | nil => rfl
  | cons p ps ih =>
      show (s.step o p).2 ++ layout o (s.step o p).1 (ps ++ qs) = _
      rw [ih, ← List.append_assoc]
      rfl

@[simp] theorem codeOf_append (cs ds : List Chunk) : codeOf (cs ++ ds) = codeOf cs ++ codeOf ds :=
  List.flatMap_append

@[simp] theorem codeOf_cons (c : Chunk) (cs : List Chunk) : codeOf (c :: cs) = c.text ++ codeOf cs :=
  rfl

namespace PrintState

/-- The chunk of a text is not empty, and it is not copied. -/
theorem mem_chunk {t : Text} {c : Chunk} (h : c ∈ chunk t) : c.text ≠ [] ∧ c.source = none := by
  unfold chunk at h
  split at h
  · exact nomatch h
  · next hsome =>
      rw [List.mem_singleton.mp h]
      exact ⟨fun hnone => hsome (List.isEmpty_iff.mpr hnone), rfl⟩

/-- A chunk that an instruction may print: of the indentation of a line, of its own text, a line break, or a
    copy. -/
inductive Yields (o : Options) (s : PrintState) : Print → Chunk → Prop where
  | lead {p : Print} {c : Chunk} : c ∈ chunk (s.lead o) → Yields o s p c
  | written {t : Text} {c : Chunk} : c ∈ chunk t → Yields o s (.write t) c
  | line {t : Text} {c : Chunk} : c ∈ chunk t → Yields o s (.line t) c
  | lineBreak {p : Print} {c : Chunk} : c ∈ chunk ['\n'] → Yields o s p c
  | copy {t : Text} (span : Span) : t ≠ [] → Yields o s (.copy t span) { text := t, source := some span }

theorem yields_of_mem_step {o : Options} {s : PrintState} {p : Print} {c : Chunk} (h : c ∈ (s.step o p).2) :
    Yields o s p c := by
  cases p with
  | write t =>
      unfold step at h
      dsimp only at h
      split at h
      · exact nomatch h
      · rcases List.mem_append.mp h with h | h
        · exact .lead h
        · exact .written h
  | line t =>
      unfold step at h
      dsimp only at h
      split at h
      · exact .lineBreak h
      · rcases List.mem_append.mp h with h | h
        · rcases List.mem_append.mp h with h | h
          · exact .lead h
          · exact .line h
        · exact .lineBreak h
  | copy t span =>
      unfold step at h
      dsimp only at h
      split at h
      · exact .lead h
      · next hsome =>
          rcases List.mem_append.mp h with h | h
          · exact .lead h
          · rw [List.mem_singleton.mp h]
            exact .copy span fun hnone => hsome (List.isEmpty_iff.mpr hnone)
  | freshLine =>
      unfold step at h
      dsimp only at h
      split at h
      · exact nomatch h
      · exact .lineBreak h
  | indent => exact nomatch h
  | dedent => exact nomatch h

/-- The chunks of an instruction: none is empty, and only a copy has a source. -/
theorem mem_step {o : Options} {s : PrintState} {p : Print} {c : Chunk} (h : c ∈ (s.step o p).2) :
    c.text ≠ [] ∧ ∀ span, c.source = some span → p = .copy c.text span := by
  cases yields_of_mem_step h with
  | lead h | written h | line h | lineBreak h =>
      obtain ⟨hne, hsource⟩ := mem_chunk h
      refine ⟨hne, fun span hspan => ?_⟩
      rw [hsource] at hspan
      exact nomatch hspan
  | copy span hne => exact ⟨hne, fun _ hspan => Option.some.inj hspan ▸ rfl⟩

end PrintState

/-- No chunk is empty, and each that has a source is copied by one of the instructions. -/
theorem mem_layout {o : Options} {s : PrintState} {ps : List Print} {c : Chunk}
    (h : c ∈ layout o s ps) :
    c.text ≠ [] ∧ ∀ span, c.source = some span → .copy c.text span ∈ ps := by
  induction ps generalizing s with
  | nil => exact nomatch h
  | cons p ps ih =>
      rcases List.mem_append.mp h with h | h
      · obtain ⟨hne, hcopy⟩ := PrintState.mem_step h
        exact ⟨hne, fun span hspan => by rw [hcopy span hspan]; exact List.mem_cons_self ..⟩
      · obtain ⟨hne, hcopy⟩ := ih h
        exact ⟨hne, fun span hspan => List.mem_cons_of_mem p (hcopy span hspan)⟩

/-! ## Mappings -/

/-- A mapping belongs to a chunk that is copied, and starts where the code before the chunk ends. -/
theorem mem_mappingsFrom {l : Location} {cs : List Chunk} {m : Mapping}
    (h : m ∈ mappingsFrom l cs) :
    ∃ before c after, cs = before ++ c :: after ∧ c.source = some m.source ∧
      m.generated.start.offset = l.offset + size (codeOf before) ∧
      m.generated.length = size c.text := by
  induction cs generalizing l with
  | nil => exact nomatch h
  | cons c cs ih =>
      have hrest (hm : m ∈ mappingsFrom (l.advance c.text) cs) :
          ∃ before d after, c :: cs = before ++ d :: after ∧ d.source = some m.source ∧
            m.generated.start.offset = l.offset + size (codeOf before) ∧
            m.generated.length = size d.text := by
        obtain ⟨before, d, after, rfl, hsource, hstart, hlength⟩ := ih hm
        refine ⟨c :: before, d, after, rfl, hsource, ?_, hlength⟩
        rw [hstart, Location.advance_offset, codeOf_cons, size_append]
        omega
      rw [mappingsFrom] at h
      split at h
      · next source hsource =>
          rcases List.mem_cons.mp h with rfl | h
          · exact ⟨[], c, cs, rfl, hsource, rfl, rfl⟩
          · exact hrest h
      · exact hrest h

/-- A mapping of printed code: a text that is not empty is copied from its source, and stands at its
    place in the code. -/
theorem exists_copy_of_mem_mappings {o : Options} {ps : List Print} {m : Mapping}
    (h : m ∈ (Generated.ofPrints o ps).mappings) :
    ∃ t, t ≠ [] ∧ .copy t m.source ∈ ps ∧ m.generated.length = size t ∧
      slice? m.generated.start.offset m.generated.stop (Generated.ofPrints o ps).code = some t := by
  obtain ⟨before, c, after, hcs, hsource, hstart, hlength⟩ := mem_mappingsFrom h
  have hmem : c ∈ layout o {} ps := by
    rw [hcs]
    exact List.mem_append_right before (List.mem_cons_self ..)
  obtain ⟨hne, hcopy⟩ := mem_layout hmem
  refine ⟨c.text, hne, hcopy m.source hsource, hlength, ?_⟩
  have hoffset : m.generated.start.offset = size (codeOf before) := by
    rw [hstart]
    exact Nat.zero_add _
  show slice? _ _ (codeOf (layout o {} ps)) = _
  rw [Span.stop, hoffset, hlength, hcs, codeOf_append, codeOf_cons, ← List.append_assoc]
  exact slice?_append _ _ _

/-- Two chunks that are not both copied. -/
def Chunk.Apart (c d : Chunk) : Prop := c.source = none ∨ d.source = none

/-- The mappings of chunks of which the first is not copied lie strictly behind the place that the
    chunks start at. -/
theorem start_lt_of_mem_mappingsFrom {l : Location} {cs : List Chunk} {m : Mapping}
    (h : m ∈ mappingsFrom l cs) (hne : ∀ c ∈ cs, c.text ≠ [])
    (hfirst : ∀ c ∈ cs.head?, c.source = none) : l.offset < m.generated.start.offset := by
  obtain ⟨before, c, after, rfl, hsource, hstart, -⟩ := mem_mappingsFrom h
  cases before with
  | nil =>
      rw [hfirst c rfl] at hsource
      exact nomatch hsource
  | cons d before =>
      have := size_pos_of_ne_nil (hne d (List.mem_cons_self ..))
      rw [hstart, codeOf_cons, size_append]
      omega

/-- Mappings of chunks of which no two neighbours are copied have a byte between them. -/
theorem isChain_mappingsFrom {l : Location} {cs : List Chunk} (hne : ∀ c ∈ cs, c.text ≠ [])
    (hapart : cs.IsChain Chunk.Apart) :
    (mappingsFrom l cs).IsChain fun m n => m.generated.stop < n.generated.start.offset := by
  induction cs generalizing l with
  | nil => exact .nil
  | cons c cs ih =>
      obtain ⟨hnext, hrest⟩ := List.isChain_cons.mp hapart
      have hne' : ∀ d ∈ cs, d.text ≠ [] := fun d hd => hne d (List.mem_cons_of_mem c hd)
      have htail := ih (l := l.advance c.text) hne' hrest
      rw [mappingsFrom]
      split
      · next source hsource =>
          refine List.isChain_cons.mpr ⟨fun n hn => ?_, htail⟩
          have hfirst : ∀ d ∈ cs.head?, d.source = none := by
            intro d hd
            rcases hnext d hd with h | h
            · rw [h] at hsource
              exact nomatch hsource
            · exact h
          have := start_lt_of_mem_mappingsFrom (List.mem_of_mem_head? hn) hne' hfirst
          rw [Location.advance_offset] at this
          exact this
      · exact htail

/-! ## Indentation -/

/-- Lines below the outermost level are indented by something. -/
def Options.Indents (o : Options) : Prop := o.indentWithTabs = true ∨ 0 < o.indentSize

theorem Options.indents_of_validate {o : Options} (h : o.validate = .ok ()) : o.Indents := by
  unfold validate at h
  split at h
  · exact nomatch h
  · next hnot =>
      unfold Indents
      by_cases htabs : o.indentWithTabs = true
      · exact Or.inl htabs
      · refine Or.inr (Nat.pos_of_ne_zero fun hsize => hnot ⟨hsize, ?_⟩)
        exact Bool.eq_false_iff.mpr htabs

theorem margin_ne_nil {o : Options} (ho : o.Indents) {s : PrintState} (hs : 0 < s.depth) :
    s.margin o ≠ [] := by
  unfold PrintState.margin
  split
  · exact fun hnil => Nat.lt_irrefl 0 (by
      rw [List.replicate_eq_nil_iff] at hnil
      omega)
  · next htabs =>
      have hsize : 0 < o.indentSize := ho.resolve_left htabs
      intro hnil
      rw [List.replicate_eq_nil_iff] at hnil
      exact Nat.ne_of_gt (Nat.mul_pos hs hsize) hnil

/-! ## Lists of instructions that keep their copies apart -/

namespace Print

/-- From one depth of indentation to another, some instructions keep their copies apart, also from
    whatever is printed before them. -/
def Moves (o : Options) (m n : Nat) (ps : List Print) : Prop :=
  ∀ s : PrintState, s.depth = m → (stateBehind o s ps).depth = n ∧
    (layout o s ps).IsChain Chunk.Apart ∧ ∀ c ∈ (layout o s ps).head?, c.source = none

variable {o : Options} {k m n : Nat} {ps qs : List Print}

theorem Moves.nil (o : Options) (n : Nat) : Moves o n n [] :=
  fun s hs => ⟨hs, .nil, fun c hc => absurd hc (by simp [layout])⟩

theorem Moves.append (h : Moves o k m ps) (h' : Moves o m n qs) : Moves o k n (ps ++ qs) := by
  intro s hs
  obtain ⟨hdepth, hchain, hfirst⟩ := h s hs
  obtain ⟨hdepth', hchain', hfirst'⟩ := h' _ hdepth
  rw [layout_append, stateBehind_append]
  refine ⟨hdepth', ?_, ?_⟩
  · refine List.isChain_append.mpr ⟨hchain, hchain', fun c _ d hd => Or.inr (hfirst' d hd)⟩
  · intro c hc
    rw [List.head?_append] at hc
    cases hps : (layout o s ps).head? with
    | none =>
        rw [hps, Option.none_or] at hc
        exact hfirst' c hc
    | some d =>
        rw [hps, Option.some_or] at hc
        exact hfirst c (by rw [hps]; exact hc)

/-- An instruction whose chunks are not copied. -/
theorem moves_of_step {p : Print} (hdepth : ∀ s : PrintState, s.depth = m → (s.step o p).1.depth = n)
    (hplain : ∀ t span, p ≠ .copy t span) : Moves o m n [p] := by
  intro s hs
  have hnone {c : Chunk} (hc : c ∈ layout o s [p]) : c.source = none := by
    obtain ⟨-, hcopy⟩ := mem_layout hc
    cases hsource : c.source with
    | none => rfl
    | some span => exact absurd (List.mem_singleton.mp (hcopy span hsource)).symm (hplain _ _)
  refine ⟨hdepth s hs, ?_, fun c hc => hnone (List.mem_of_mem_head? hc)⟩
  have hall : ∀ c ∈ layout o s [p], c.source = none := fun c hc => hnone hc
  generalize layout o s [p] = cs at hall
  induction cs with
  | nil => exact .nil
  | cons c cs ih =>
      refine List.isChain_cons.mpr ⟨fun d _ => Or.inl (hall c (List.mem_cons_self ..)), ?_⟩
      exact ih fun d hd => hall d (List.mem_cons_of_mem c hd)

theorem moves_line (o : Options) (n : Nat) (t : Text) : Moves o n n [.line t] := by
  refine moves_of_step (fun s hs => ?_) fun _ _ => Print.noConfusion
  unfold PrintState.step
  dsimp only
  split
  · exact hs
  · exact hs

@[simp] theorem depth_behind (s : PrintState) (t : Text) : (s.behind t).depth = s.depth := by
  unfold PrintState.behind
  split <;> rfl

theorem moves_write (o : Options) (n : Nat) (t : Text) : Moves o n n [.write t] := by
  refine moves_of_step (fun s hs => ?_) fun _ _ => Print.noConfusion
  unfold PrintState.step
  dsimp only
  split
  · exact hs
  · rw [depth_behind, hs]

theorem moves_freshLine (o : Options) (n : Nat) : Moves o n n [.freshLine] := by
  refine moves_of_step (fun s hs => ?_) fun _ _ => Print.noConfusion
  unfold PrintState.step
  dsimp only
  split
  · exact hs
  · exact hs

theorem moves_indent (o : Options) (n : Nat) : Moves o n (n + 1) [.indent] :=
  moves_of_step (fun s hs => by rw [← hs]; rfl) fun _ _ => Print.noConfusion

theorem moves_dedent (o : Options) (n : Nat) : Moves o (n + 1) n [.dedent] :=
  moves_of_step (fun s hs => by show s.depth - 1 = n; omega) fun _ _ => Print.noConfusion

/-- A copy behind chunks of which there is one at least and none is copied. -/
theorem apart_of_plain {cs ds : List Chunk} (hplain : ∀ c ∈ cs, c.source = none) (hcs : cs ≠ [])
    (hds : ds.length ≤ 1) :
    (cs ++ ds).IsChain Chunk.Apart ∧ ∀ c ∈ (cs ++ ds).head?, c.source = none := by
  constructor
  · induction cs with
    | nil => exact absurd rfl hcs
    | cons c cs ih =>
        have hc : c.source = none := hplain c (List.mem_cons_self ..)
        refine List.isChain_cons.mpr ⟨fun d _ => Or.inl hc, ?_⟩
        cases cs with
        | nil =>
            cases ds with
            | nil => exact .nil
            | cons d ds =>
                rw [List.eq_nil_of_length_eq_zero (l := ds) (by rw [List.length_cons] at hds; omega)]
                exact .singleton d
        | cons d cs =>
            exact ih (fun e he => hplain e (List.mem_cons_of_mem c he)) (List.cons_ne_nil d cs)
  · intro c hc
    cases cs with
    | nil => exact absurd rfl hcs
    | cons d cs =>
        rw [List.cons_append, List.head?_cons] at hc
        rw [← Option.some.inj hc]
        exact hplain d (List.mem_cons_self ..)

/-- What a copy prints: the indentation that is due, and at most one chunk that is copied. -/
theorem step_copy_chunks (o : Options) (s : PrintState) (t : Text) (source : Span) :
    ∃ ds : List Chunk, ds.length ≤ 1 ∧
      (s.step o (.copy t source)).2 = PrintState.chunk (s.lead o) ++ ds ∧
      (s.step o (.copy t source)).1.depth = s.depth := by
  unfold PrintState.step
  dsimp only
  split
  · exact ⟨[], Nat.zero_le _, (List.append_nil _).symm, depth_behind ..⟩
  · exact ⟨[_], Nat.le_refl _, rfl, depth_behind ..⟩

theorem chunk_ne_nil {t : Text} (h : t ≠ []) : PrintState.chunk t ≠ [] := by
  unfold PrintState.chunk
  rw [if_neg (by rw [List.isEmpty_iff]; exact h)]
  exact List.cons_ne_nil _ _

/-- A copy right behind a text that is written. -/
theorem moves_write_copy (o : Options) (n : Nat) {t : Text} (ht : t ≠ []) (u : Text)
    (source : Span) : Moves o n n [.write t, .copy u source] := by
  intro s hs
  obtain ⟨ds, hds, hchunks, hdepth⟩ := step_copy_chunks o (s.behind t) u source
  have hstep : s.step o (.write t) =
      (s.behind t, PrintState.chunk (s.lead o) ++ PrintState.chunk t) :=
    if_neg (by rw [List.isEmpty_iff]; exact ht)
  have hlayout : layout o s [.write t, .copy u source] =
      (PrintState.chunk (s.lead o) ++ PrintState.chunk t ++
        PrintState.chunk ((s.behind t).lead o)) ++ ds := by
    show (s.step o (.write t)).2 ++
      (((s.step o (.write t)).1.step o (.copy u source)).2 ++ []) = _
    rw [hstep, hchunks, List.append_nil, List.append_assoc, List.append_assoc, List.append_assoc]
  rw [hlayout]
  refine ⟨?_, apart_of_plain (fun c hc => ?_) (fun hnil => ?_) hds⟩
  · show ((s.step o (.write t)).1.step o (.copy u source)).1.depth = n
    rw [hstep, hdepth, depth_behind, hs]
  · rcases List.mem_append.mp hc with hc | hc
    · rcases List.mem_append.mp hc with hc | hc
      · exact (PrintState.mem_chunk hc).2
      · exact (PrintState.mem_chunk hc).2
    · exact (PrintState.mem_chunk hc).2
  · have := List.append_eq_nil_iff.mp hnil
    exact chunk_ne_nil ht (List.append_eq_nil_iff.mp this.1).2

/-- A copy on a line of its own, where lines are indented. -/
theorem moves_freshLine_copy {o : Options} (ho : o.Indents) {n : Nat} (hn : 0 < n) (u : Text)
    (source : Span) : Moves o n n [.freshLine, .copy u source] := by
  intro s hs
  obtain ⟨hline, hdepth₁, hplain⟩ : (s.step o .freshLine).1.atLineStart = true ∧
      (s.step o .freshLine).1.depth = n ∧ ∀ c ∈ (s.step o .freshLine).2, c.source = none := by
    unfold PrintState.step
    dsimp only
    split
    · next hstart => exact ⟨hstart, hs, fun c hc => absurd hc List.not_mem_nil⟩
    · exact ⟨rfl, hs, fun c hc => (PrintState.mem_chunk (t := ['\n']) hc).2⟩
  generalize hbehind : (s.step o .freshLine).1 = s₁ at hline hdepth₁
  obtain ⟨ds, hds, hchunks, hdepth⟩ := step_copy_chunks o s₁ u source
  have hlead : s₁.lead o ≠ [] := by
    rw [PrintState.lead, if_pos hline]
    exact margin_ne_nil ho (by omega)
  have hlayout : layout o s [.freshLine, .copy u source] =
      ((s.step o .freshLine).2 ++ PrintState.chunk (s₁.lead o)) ++ ds := by
    show (s.step o .freshLine).2 ++
      (((s.step o .freshLine).1.step o (.copy u source)).2 ++ []) = _
    rw [hbehind, hchunks, List.append_nil, List.append_assoc]
  rw [hlayout]
  refine ⟨?_, apart_of_plain (fun c hc => ?_) (fun hnil => ?_) hds⟩
  · show ((s.step o .freshLine).1.step o (.copy u source)).1.depth = n
    rw [hbehind, hdepth, hdepth₁]
  · rcases List.mem_append.mp hc with hc | hc
    · exact hplain c hc
    · exact (PrintState.mem_chunk hc).2
  · exact chunk_ne_nil hlead (List.append_eq_nil_iff.mp hnil).2

end Print

end RazorLang
