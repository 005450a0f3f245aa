import RazorLang.Proofs.Generation.Mappings
import RazorLang.Proofs.Generation.Seams

/-!
# Where mappings of generated C# start

Main statement: `Engine.start_mapping_compileWhile` — a mapping of compiled C# starts at the place of its
offset in the code, as many lines further down as there are mappings before it that end inside of a `\r\n`.

Generation writes nothing itself that ends in a `\r` (`PageModel.quiet_prints`), except where a namespace
that no directive of the document names does: this line stands before all mappings and moves each of them.
-/

namespace RazorLang

open Text Print

/-! ## Instructions that write no `\r` at an end -/

namespace Print

/-- What an instruction writes does not end in a `\r`; what it copies may. -/
def isQuiet : Print → Bool
  | write t | line t => t.getLast? != some '\r'
  | _ => true

/-- Instructions of which none writes a text that ends in a `\r`. -/
def Quiet (ps : List Print) : Prop := ∀ p ∈ ps, p.isQuiet = true

variable {ps qs : List Print}

theorem Quiet.nil : Quiet [] := fun _ h => absurd h List.not_mem_nil

theorem Quiet.cons {p : Print} (hp : p.isQuiet = true) (h : Quiet ps) : Quiet (p :: ps) :=
  List.forall_mem_cons.mpr ⟨hp, h⟩

theorem Quiet.append (h : Quiet ps) (h' : Quiet qs) : Quiet (ps ++ qs) :=
  List.forall_mem_append.mpr ⟨h, h'⟩

theorem Quiet.flatMap {α : Type} {f : α → List Print} {as : List α} (h : ∀ a ∈ as, Quiet (f a)) :
    Quiet (as.flatMap f) := by
  intro p hp
  obtain ⟨a, ha, hp⟩ := List.mem_flatMap.mp hp
  exact h a ha p hp

theorem Quiet.map {α : Type} {f : α → Print} {as : List α} (h : ∀ a ∈ as, (f a).isQuiet = true) :
    Quiet (as.map f) := by
  intro p hp
  obtain ⟨a, ha, rfl⟩ := List.mem_map.mp hp
  exact h a ha

/-- A text ends in something else than a `\r` if its last part does. -/
theorem getLast?_append_ne (u : Text) {v : Text} (hv : v.getLast?.any (· != '\r') = true) :
    (u ++ v).getLast? ≠ some '\r' := by
  obtain ⟨c, hlast, hc⟩ := Option.any_eq_true _ _ |>.mp hv
  rw [List.getLast?_append, hlast, Option.some_or]
  rintro h
  rw [Option.some.inj h] at hc
  exact nomatch hc

theorem isQuiet_line (u : Text) {v : Text} (hv : v.getLast?.any (· != '\r') = true) :
    (line (u ++ v)).isQuiet = true :=
  bne_iff_ne.mpr (getLast?_append_ne u hv)

theorem isQuiet_write (u : Text) {v : Text} (hv : v.getLast?.any (· != '\r') = true) :
    (write (u ++ v)).isQuiet = true :=
  bne_iff_ne.mpr (getLast?_append_ne u hv)

theorem quiet_openBlock {header : Text} (h : (line header).isQuiet = true) : Quiet (openBlock header) :=
  .cons rfl (.cons h (.cons rfl (.cons rfl .nil)))

theorem quiet_closeBlock : Quiet closeBlock := .cons rfl (.cons rfl (.cons rfl .nil))

end Print

namespace PrintState

variable {o : Options} {s : PrintState}

/-- The indentation of a line ends in a blank or a tab. -/
theorem getLast?_lead_ne : (s.lead o).getLast? ≠ some '\r' := by
  intro h
  have hmem := List.mem_of_getLast? h
  unfold lead margin at hmem
  split at hmem
  · split at hmem
    · exact absurd (List.eq_of_mem_replicate hmem) (by decide)
    · exact absurd (List.eq_of_mem_replicate hmem) (by decide)
  · exact nomatch hmem

theorem isQuiet_of_mem_chunk {t : Text} (ht : t.getLast? ≠ some '\r') {c : Chunk} (hc : c ∈ chunk t) :
    c.IsQuiet := by
  intro _
  unfold chunk at hc
  split at hc
  · exact nomatch hc
  · rw [List.mem_singleton.mp hc]
    exact ht

/-- The chunks of a quiet instruction are quiet. -/
theorem isQuiet_of_mem_step {p : Print} (hp : p.isQuiet = true) {c : Chunk} (hc : c ∈ (s.step o p).2) :
    c.IsQuiet := by
  cases yields_of_mem_step hc with
  | lead hc => exact isQuiet_of_mem_chunk getLast?_lead_ne hc
  | written hc | line hc => exact isQuiet_of_mem_chunk (bne_iff_ne.mp hp) hc
  | lineBreak hc => exact isQuiet_of_mem_chunk (by decide) hc
  | copy span hne => exact fun h => nomatch h

end PrintState

theorem isQuiet_of_mem_layout {o : Options} {s : PrintState} {ps : List Print} (h : Quiet ps) {c : Chunk}
    (hc : c ∈ layout o s ps) : c.IsQuiet := by
  induction ps generalizing s with
  | nil => exact nomatch hc
  | cons p ps ih =>
      obtain ⟨hp, hrest⟩ := List.forall_mem_cons.mp h
      rcases List.mem_append.mp hc with hc | hc
      · exact PrintState.isQuiet_of_mem_step hp hc
      · exact ih hrest hc

/-! ## The body -/

namespace Emission

theorem getLast?_stringLiteral_ne (t : Text) : (stringLiteral t).getLast? ≠ some '\r' :=
  getLast?_append_ne _ (by decide)

theorem isQuiet_printValue (value : AttributeCode) : (printValue value).isQuiet = true := by
  cases value with
  | isSet => rfl
  | literal t => exact bne_iff_ne.mpr (getLast?_stringLiteral_ne t)
  | code t span => rfl

theorem quiet_closeNested {tail : Text} (h : (line tail).isQuiet = true) : Quiet (closeNested tail) :=
  .cons rfl (.cons rfl (.cons h .nil))

theorem quiet_printCode (t : Text) (span : Span) : Quiet (printCode t span) := by
  unfold printCode
  split
  · exact .nil
  · exact .cons rfl (.cons rfl (.cons rfl .nil))

/-- An emission writes nothing that ends in a `\r`. -/
theorem quiet_print (kind : BodyKind) (s : BodyState) (e : Emission) : Quiet (print kind s e).2 := by
  cases e with
  | markup t =>
      show Quiet (printMarkup kind s t).2
      unfold printMarkup
      split
      · exact .nil
      · split
        · exact .cons rfl (.cons (isQuiet_line _ (by decide)) .nil)
        · exact .cons rfl (.cons (isQuiet_line _ (by decide)) .nil)
  | expression t span =>
      show Quiet (printExpression kind s t span).2
      unfold printExpression
      split
      · exact .nil
      · split
        · exact .cons rfl (.cons rfl (.cons rfl (.cons rfl .nil)))
        · split
          · exact .cons rfl (.cons (isQuiet_write _ (by decide)) (.cons rfl (.cons rfl .nil)))
          · exact .cons rfl (.cons rfl (.cons rfl (.cons rfl .nil)))
  | statement t span => exact quiet_printCode t span
  | sectionStart name =>
      exact .cons rfl (.cons rfl (.cons (bne_iff_ne.mpr (getLast?_stringLiteral_ne name))
        (.cons rfl (.cons rfl .nil))))
  | helperStart | fragmentStart => exact .cons rfl (.cons (isQuiet_line _ (by decide)) (.cons rfl .nil))
  | sectionEnd | helperContentEnd | fragmentEnd => exact quiet_closeNested rfl
  | helperEnd => exact .cons rfl (.cons rfl (.cons rfl .nil))
  | elementStart | elementEnd | componentStart | componentEnd =>
      exact .cons rfl (.cons (isQuiet_line _ (by decide)) .nil)
  | helperAttribute => exact .cons (isQuiet_line _ (by decide)) .nil
  | helperCreate => exact .cons (isQuiet_line _ (by decide)) (.cons (isQuiet_line _ (by decide)) .nil)
  -- the others print a value behind code of their own
  | helperProperty type property given value =>
      exact .cons (isQuiet_write _ (by decide)) (.cons (isQuiet_printValue value)
        (.cons rfl (.cons (isQuiet_line _ (by decide)) .nil)))
  | setAttribute _ value | key value | callback _ value =>
      exact .cons (isQuiet_write _ (by decide)) (.cons (isQuiet_printValue value) (.cons rfl .nil))
  | reference component value =>
      exact .cons (isQuiet_write _ (by decide)) (.cons (isQuiet_printValue value)
        (.cons (isQuiet_line _ (by decide)) .nil))

theorem quiet_printAll (kind : BodyKind) (s : BodyState) (es : List Emission) :
    Quiet (printAll kind s es) := by
  induction es generalizing s with
  | nil => exact .nil
  | cons e es ih => exact (quiet_print kind s e).append (ih _)

end Emission

/-! ## Around the body -/

namespace PageModel

variable (p : PageModel)

theorem isQuiet_checksumLine {d : Source} {a : HashAlgorithm} {t : Text} (h : checksumLine d a = .ok t) :
    (line t).isQuiet = true := by
  unfold checksumLine at h
  obtain ⟨guid, -, h⟩ := Engine.bind_eq_ok h
  obtain ⟨digest, -, h⟩ := Engine.bind_eq_ok h
  rw [← Except.ok.inj h]
  exact isQuiet_line _ (by decide)

theorem quiet_printImports : Quiet p.printImports := by
  refine Quiet.append (.map fun t _ => isQuiet_line _ (by decide)) (.flatMap fun v _ => ?_)
  exact .cons rfl (.cons rfl (.cons rfl .nil))

theorem quiet_printClass : Quiet p.printClass := by
  unfold printClass
  refine Quiet.append ?_ (.cons rfl (.cons rfl .nil))
  split
  · unfold printComponentClass
    refine ((((Quiet.flatMap fun v _ => ?_).append ?_).append ?_).append (.flatMap fun v _ => ?_)).append ?_
    · exact .cons (isQuiet_write _ (by decide)) (.cons rfl (.cons rfl .nil))
    · split
      · exact .cons (isQuiet_write _ (by decide)) (.cons rfl (.cons rfl .nil))
      · exact .nil
    · refine .cons (isQuiet_write _ (by decide)) (.cons ?_ .nil)
      split
      · rfl
      · exact isQuiet_write _ (by decide)
    · exact .cons rfl (.cons rfl .nil)
    · exact .cons rfl .nil
  · unfold printPageClass
    refine Quiet.append (.append (.cons (isQuiet_write _ (by decide)) .nil) ?_) (.cons rfl .nil)
    split
    · exact .cons rfl .nil
    · split
      · refine .cons rfl (.cons ?_ (.cons rfl .nil))
        unfold printModel
        split
        · rfl
        · rfl
      · exact .cons rfl .nil

theorem quiet_printMethod : Quiet p.printMethod := by
  have hbody := Emission.quiet_printAll ⟨p.isComponent, p.options.designTime⟩ {} p.emissions
  unfold printMethod
  dsimp only
  split
  · exact ((quiet_openBlock (isQuiet_line _ (by decide))).append hbody).append quiet_closeBlock
  · exact (((Quiet.cons rfl .nil).append (quiet_openBlock rfl)).append hbody).append quiet_closeBlock
      |>.append (.cons rfl .nil)

theorem quiet_printDesignTimeField : Quiet p.printDesignTimeField := by
  unfold printDesignTimeField
  split
  · exact .cons rfl (.cons rfl (.cons rfl .nil))
  · exact .nil

theorem isQuiet_injectAttribute : (line p.injectAttribute).isQuiet = true := by
  unfold injectAttribute
  split
  · exact isQuiet_line _ (by decide)
  · rfl

theorem quiet_printInjections : Quiet p.printInjections := by
  have htail : p.injectTail.getLast?.any (· != '\r') = true := by
    unfold injectTail
    split
    · decide
    · decide
  have hline : (line p.injectTail).isQuiet = true := by
    have := isQuiet_line [] htail
    exact this
  refine Quiet.append (.flatMap fun i _ => .flatMap fun use _ => ?_) (.flatMap fun use _ => ?_)
  · split
    · exact .cons p.isQuiet_injectAttribute (.cons (isQuiet_line _ htail) .nil)
    · exact .nil
  · split
    · exact .cons p.isQuiet_injectAttribute (.cons (isQuiet_write _ (by decide)) (.cons rfl
        (.cons rfl (.cons rfl (.cons hline .nil)))))
    · exact .nil

theorem quiet_printServices : Quiet p.printServices := by
  unfold printServices
  split
  · exact .nil
  · exact .flatMap fun service _ => .cons rfl (.cons (isQuiet_line _ (by decide)) .nil)

theorem quiet_printMembers : Quiet p.printMembers :=
  .flatMap fun _ _ => .flatMap fun t _ => Emission.quiet_printCode t.text t.span

theorem quiet_printHelperFields : Quiet p.printHelperFields := by
  unfold printHelperFields
  split
  · exact .nil
  · refine Quiet.append ?_ (.map fun type _ => isQuiet_line _ (by decide))
    exact .cons rfl (.cons (isQuiet_line _ (by decide)) (.cons rfl
      (.cons (isQuiet_line _ (by decide)) (.cons (isQuiet_line _ (by decide)) .nil))))

/-- Everything behind the namespace writes nothing that ends in a `\r`. -/
theorem exists_quiet_rest : ∃ rest, Quiet rest ∧
    p.prints = [line "// <auto-generated/>", line "#pragma warning disable 1591"] ++
      (p.printNamespace ++ rest) := by
  have hhidden : Quiet [line "#line hidden"] := .cons rfl .nil
  have hrestore : Quiet [line "#pragma warning restore 1591"] := .cons rfl .nil
  have hmembers := p.quiet_printMembers.append (p.quiet_printHelperFields.append
    (quiet_closeBlock.append (quiet_closeBlock.append hrestore)))
  have hbody := p.quiet_printMethod.append (p.quiet_printDesignTimeField.append
    (p.quiet_printInjections.append (p.quiet_printServices.append hmembers)))
  refine ⟨_, hhidden.append (p.quiet_printImports.append (p.quiet_printClass.append hbody)), ?_⟩
  simp only [prints, List.append_assoc]

/-- The document has no directive for its namespace, and the namespace that it has ends in a `\r`: the line
    of the namespace then ends in a `\r\n`. -/
def splitsLine : Bool :=
  (p.lastValue? .setNamespace).isNone && p.impliedSpace.getLast? == some '\r'

end PageModel

section Lines

variable {o : Options} {s : PrintState}

theorem source_of_mem_layout {ps : List Print} (h : ∀ t span, .copy t span ∉ ps) {c : Chunk}
    (hc : c ∈ layout o s ps) : c.source = none := by
  cases hsource : c.source with
  | none => rfl
  | some span => exact absurd ((mem_layout hc).2 span hsource) (h _ span)

theorem layout_line (t : Text) :
    layout o s [.line t] = (if t.isEmpty then [] else PrintState.chunk (s.lead o)) ++
      PrintState.chunk t ++ [{ text := ['\n'] }] := by
  cases t with
  | nil => rfl
  | cons c t => exact List.append_nil _

/-- The braces of a block are indented below its header. -/
theorem layout_line_indent (t : Text) : layout o s [.line t, .indent] = layout o s [.line t] := rfl

theorem getLast?_codeOf_line (t : Text) : (codeOf (layout o s [.line t])).getLast? = some '\n' := by
  rw [layout_line, codeOf_append, List.getLast?_append]
  rfl

/-- Printing a line that ends in a `\r` puts one cut inside of a `\r\n`. -/
theorem seams_line (t : Text) :
    seams (layout o s [.line t]) = if t.getLast? = some '\r' then 1 else 0 := by
  have hlead : ∀ c ∈ (if t.isEmpty then [] else PrintState.chunk (s.lead o)),
      c.text.getLast? ≠ some '\r' := by
    intro c hc
    split at hc
    · exact nomatch hc
    · exact PrintState.isQuiet_of_mem_chunk PrintState.getLast?_lead_ne hc (PrintState.mem_chunk hc).2
  rw [layout_line, List.append_assoc,
    seams_append (fun h => getLast?_codeOf_ne hlead h.1), seams_eq_zero hlead, Nat.zero_add]
  cases t with
  | nil => rfl
  | cons c t =>
      show (if (c :: t).getLast? = some '\r' ∧ some '\n' = some '\n' then 1 else 0) + 0 = _
      simp only [and_true, Nat.add_zero]

end Lines

namespace PageModel

variable {p : PageModel}

/-- What is printed up to an implied namespace, behind quiet instructions that copy nothing: no copies, an
    ended line, and one cut inside of a `\r\n` if the namespace splits its line. -/
theorem layout_impliedNamespace (hspace : p.lastValue? .setNamespace = none) {first : List Print}
    (hfirst : Quiet first) (hcopyless : ∀ t span, copy t span ∉ first) (o : Options) (s : PrintState) :
    (∀ c ∈ layout o s (first ++ p.printNamespace), c.source = none) ∧
      (codeOf (layout o s (first ++ p.printNamespace))).getLast? = some '\n' ∧
      seams (layout o s (first ++ p.printNamespace)) = if p.splitsLine then 1 else 0 := by
  have hnamespace : p.printNamespace =
      [line ("namespace " ++ p.impliedSpace)] ++ [line "\x7b", .indent] := by
    unfold printNamespace
    rw [hspace]
  have hwhole (c : Chunk) (hc : c ∈ layout o s first) : c.text.getLast? ≠ some '\r' :=
    isQuiet_of_mem_layout hfirst hc (source_of_mem_layout hcopyless hc)
  have hsplits : ("namespace " ++ p.impliedSpace : Text).getLast? = some '\r' ↔ p.splitsLine = true := by
    rw [splitsLine, hspace, Option.isNone_none, Bool.true_and, beq_iff_eq, List.getLast?_append]
    cases p.impliedSpace.getLast? with
    | none => decide
    | some c => rfl
  have hended (t v : Text) (s : PrintState) : ¬ PartsBreak (codeOf (layout o s [line t])) v := by
    rw [PartsBreak, getLast?_codeOf_line]
    exact fun h => nomatch h.1
  have hbrace {s : PrintState} : seams (layout o s [line "\x7b"]) = 0 := seams_line _
  rw [hnamespace]
  refine ⟨fun c hc => source_of_mem_layout (fun t span hmem => ?_) hc, ?_, ?_⟩
  · rcases List.mem_append.mp hmem with hmem | hmem
    · exact hcopyless t span hmem
    · simp at hmem
  · rw [layout_append, layout_append, layout_line_indent, codeOf_append, codeOf_append,
      List.getLast?_append, List.getLast?_append, getLast?_codeOf_line]
    rfl
  · rw [layout_append, layout_append, layout_line_indent,
      seams_append (fun h => getLast?_codeOf_ne hwhole h.1), seams_eq_zero hwhole,
      seams_append (hended _ _ _), hbrace, seams_line, if_congr hsplits rfl rfl, Nat.add_zero, Nat.zero_add]

/-- Where the mappings of a page start, if it is printed behind some lines that do not end in a `\r`. -/
theorem start_of_mappings {lead : List Text} {before after : List Mapping} {m : Mapping}
    {chunks : List Chunk} (hlead : ∀ t ∈ lead, (line t).isQuiet = true)
    (hchunks : chunks = layout p.options {} (lead.map .line ++ p.prints))
    (hapart : chunks.IsChain Chunk.Apart) (h : mappingsFrom .start chunks = before ++ m :: after) :
    m.generated.start = ((Source.anonymous (codeOf chunks)).location m.generated.start.offset).below
      (before.countP (·.isHalved (codeOf chunks)) + if p.splitsLine then 1 else 0) := by
  obtain ⟨rest, hrest, hprints⟩ := p.exists_quiet_rest
  have hfirst : Quiet (lead.map .line ++ [line "// <auto-generated/>", line "#pragma warning disable 1591"]) :=
    (Quiet.map hlead).append (.cons rfl (.cons rfl .nil))
  rw [hprints, ← List.append_assoc, ← List.append_assoc] at hchunks
  cases hspace : p.lastValue? .setNamespace with
  | some v =>
      have hnamespace : Quiet p.printNamespace := by
        unfold printNamespace
        rw [hspace]
        exact .cons rfl (.cons rfl (.cons rfl (.cons rfl (.cons rfl .nil))))
      have hsplits : p.splitsLine = false := by
        rw [splitsLine, hspace]
        rfl
      have hnone : ∀ c ∈ ([] : List Chunk), c.source = none := fun c hc => nomatch hc
      have hne : ∀ d ∈ chunks, d.text ≠ [] := fun d hd => (mem_layout (hchunks ▸ hd)).1
      have hquiet : ∀ d ∈ chunks, d.IsQuiet := fun d hd =>
        isQuiet_of_mem_layout ((hfirst.append hnamespace).append hrest) (hchunks ▸ hd)
      have hstart := start_of_mappingsFrom hnone (not_partsBreak_nil_left _) hne hquiet hapart h
      rw [List.nil_append] at hstart
      rw [hsplits]
      exact hstart
  | none =>
      obtain ⟨hplain, hlast, hseams⟩ :=
        layout_impliedNamespace hspace hfirst (by simp) p.options {}
      rw [layout_append] at hchunks
      subst hchunks
      obtain ⟨-, hapart, -⟩ := List.isChain_append.mp hapart
      rw [← hseams]
      exact start_of_mappingsFrom hplain (fun hcut => nomatch hlast.symm.trans hcut.1)
        (fun d hd => (mem_layout hd).1) (fun d hd => isQuiet_of_mem_layout hrest hd) hapart h

end PageModel

/-! ## The mappings of a compilation -/

namespace Engine

variable {e : Engine} {mayGoOn : Phase → Bool} {r : Request} {c : Compilation}

/-- Each mapping of the C# that a request is compiled to starts at the byte and in the column of its offset
    in the code, and as many lines below its line as there are mappings before it that end inside of a
    `\r\n`, and one more if the namespace splits its line. So the place is right exactly if there is none
    of either. -/
theorem start_mapping_compileWhile (h : e.compileWhile mayGoOn r = .ok c) {before after : List Mapping}
    {m : Mapping} (hm : c.csharp.mappings = before ++ m :: after) :
    m.generated.start =
        ((Source.anonymous c.csharp.code).location m.generated.start.offset).below
          (before.countP (·.isHalved c.csharp.code) + if (e.modelOf r).splitsLine then 1 else 0) ∧
      (m.generated.start = (Source.anonymous c.csharp.code).location m.generated.start.offset ↔
        (∀ n ∈ before, n.isHalved c.csharp.code = false) ∧ (e.modelOf r).splitsLine = false) := by
  obtain ⟨hvalid, hcsharp, -⟩ := compileWhile_eq_ok h
  obtain ⟨lead, hlead, hprints⟩ := PageModel.toCSharp_eq_ok_checksum hcsharp
  have hsound : Sound (e.modelOf r).options r.source.Allows 0 0
      (lead.map .line ++ (e.modelOf r).prints) :=
    (Sound.map_line id lead).append (PageModel.sound_prints (Options.indents_of_validate hvalid)
      (ParsedDocument.valuesIn_bind rfl) ParsedDocument.copies_bind)
  obtain ⟨-, hapart, -⟩ := hsound.moves {} rfl
  have hstart : m.generated.start =
      ((Source.anonymous c.csharp.code).location m.generated.start.offset).below
        (before.countP (·.isHalved c.csharp.code) + if (e.modelOf r).splitsLine then 1 else 0) := by
    rw [hprints] at hm ⊢
    exact PageModel.start_of_mappings (fun t ht => PageModel.isQuiet_checksumLine (hlead t ht)) rfl
      hapart hm
  refine ⟨hstart, ?_⟩
  constructor
  · intro hright
    obtain ⟨hcount, hsplits⟩ := Nat.add_eq_zero_iff.mp (Location.below_eq_self.mp (hright.symm.trans hstart))
    exact ⟨by simpa [List.countP_eq_zero] using hcount, by simpa using hsplits⟩
  · rintro ⟨hnone, hsplits⟩
    have hcount : before.countP (·.isHalved c.csharp.code) = 0 :=
      List.countP_eq_zero.mpr fun n hn => Bool.eq_false_iff.mp (hnone n hn)
    rw [hcount, hsplits] at hstart
    exact hstart

/-- The second of two expressions starts where it should. -/
theorem start_mapping_compileWhile_expressions :
    ∃ c m n, bare.compileWhile (fun _ => true) ⟨.anonymous "@a @b", .component, []⟩ = .ok c ∧
      c.csharp.mappings = [m, n] ∧
      n.generated.start =
        ((Source.anonymous c.csharp.code).location n.generated.start.offset).below
          ([m].countP (·.isHalved c.csharp.code) +
            if (bare.modelOf ⟨.anonymous "@a @b", .component, []⟩).splitsLine then 1 else 0) ∧
      (n.generated.start = (Source.anonymous c.csharp.code).location n.generated.start.offset ↔
        (∀ k ∈ [m], k.isHalved c.csharp.code = false) ∧
          (bare.modelOf ⟨.anonymous "@a @b", .component, []⟩).splitsLine = false) := by
  obtain ⟨c, hc, hlength⟩ := exists_ok_of_map_toOption (f := fun c => c.csharp.mappings.length) (b := 2)
    (x := bare.compileWhile (fun _ => true) ⟨.anonymous "@a @b", .component, []⟩) (by decide +kernel)
  obtain ⟨m, n, hmappings⟩ := List.length_eq_two.mp hlength
  have hm : c.csharp.mappings = [m] ++ n :: [] := hmappings
  obtain ⟨hstart, hright⟩ := start_mapping_compileWhile hc hm
  exact ⟨c, m, n, hc, hmappings, hstart, hright⟩

/-- A statement that ends in a lone `\r` is ended by the line break of the code, so the two are one `\r\n`:
    the expression behind it stands in line 15 of the code, and its mapping says 16. -/
theorem start_mapping_compileWhile_return :
    ∃ c, bare.compileWhile (fun _ => true) ⟨.anonymous "@\x7b x;\r\x7d@y", .component, []⟩ = .ok c ∧
      c.csharp.mappings.map (fun m => (m.generated.start.line,
        ((Source.anonymous c.csharp.code).location m.generated.start.offset).line)) =
      [(14, 14), (16, 15)] :=
  exists_ok_of_map_toOption (by decide +kernel)

end Engine

end RazorLang
