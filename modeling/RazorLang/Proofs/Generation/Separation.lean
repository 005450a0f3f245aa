import RazorLang.Generation.CSharp
import RazorLang.Proofs.Generation.Balance
import RazorLang.Proofs.Generation.Layout

/-!
# Generated C# keeps its copies apart

Main statement: `PageModel.sound_prints` — whatever a document holds, generation starts and ends without
indentation, prints something between any two pieces that it copies, and copies nothing but values of
directives, pieces of code and the code of attributes. In the body a piece either follows a call that is
written before it or starts a line of its own; a line of the body is indented, because closing braces only
close what emissions have opened (`Emission.Balanced`).
-/

namespace RazorLang

open Text Print

variable {o : Options} {P : Text → Span → Prop} {k m n : Nat} {ps qs : List Print}

/-! ## Single instructions -/

namespace Print

/-- From one depth of indentation to another, some instructions keep apart what they copy, and copy only
    such pieces of the source as `P` holds of. -/
structure Sound (o : Options) (P : Text → Span → Prop) (m n : Nat) (ps : List Print) : Prop where
  moves : Moves o m n ps
  copies : ∀ t span, .copy t span ∈ ps → P t span

theorem Sound.nil : Sound o P n n [] := ⟨.nil o n, fun _ _ h => absurd h List.not_mem_nil⟩

theorem Sound.append (h : Sound o P k m ps) (h' : Sound o P m n qs) :
    Sound o P k n (ps ++ qs) := by
  refine ⟨h.moves.append h'.moves, fun t span ht => ?_⟩
  rcases List.mem_append.mp ht with ht | ht
  · exact h.copies t span ht
  · exact h'.copies t span ht

/-- Lists that all stay at one depth do so together. -/
theorem Sound.flatMap {α : Type} {f : α → List Print} {as : List α}
    (h : ∀ a ∈ as, Sound o P n n (f a)) : Sound o P n n (as.flatMap f) := by
  induction as with
  | nil => exact .nil
  | cons a as ih =>
      rw [List.flatMap_cons]
      exact (h a (List.mem_cons_self ..)).append
        (ih fun b hb => h b (List.mem_cons_of_mem a hb))

/-- An instruction that copies nothing, and what follows it. -/
theorem Sound.cons {p : Print} (hmoves : Moves o k m [p]) (hplain : ∀ t span, p ≠ .copy t span)
    (h : Sound o P m n ps) : Sound o P k n (p :: ps) := by
  refine ⟨hmoves.append h.moves, fun t span ht => ?_⟩
  rcases List.mem_cons.mp ht with ht | ht
  · exact absurd ht.symm (hplain t span)
  · exact h.copies t span ht

theorem Sound.line (t : Text) (h : Sound o P m n ps) : Sound o P m n (.line t :: ps) :=
  h.cons (moves_line o m t) fun _ _ => Print.noConfusion

theorem Sound.write (t : Text) (h : Sound o P m n ps) : Sound o P m n (.write t :: ps) :=
  h.cons (moves_write o m t) fun _ _ => Print.noConfusion

theorem Sound.freshLine (h : Sound o P m n ps) : Sound o P m n (.freshLine :: ps) :=
  h.cons (moves_freshLine o m) fun _ _ => Print.noConfusion

theorem Sound.indent (h : Sound o P (m + 1) n ps) : Sound o P m n (.indent :: ps) :=
  h.cons (moves_indent o m) fun _ _ => Print.noConfusion

theorem Sound.dedent (h : Sound o P m n ps) : Sound o P (m + 1) n (.dedent :: ps) :=
  h.cons (moves_dedent o m) fun _ _ => Print.noConfusion

/-- An instruction that copies nothing, a copy behind it, and what follows the two. -/
theorem Sound.pair {p : Print} {u : Text} {source : Span} (hu : P u source)
    (hmoves : Moves o k m [p, .copy u source]) (hplain : ∀ t span, p ≠ .copy t span)
    (h : Sound o P m n ps) : Sound o P k n (p :: .copy u source :: ps) := by
  refine ⟨hmoves.append h.moves, fun t span ht => ?_⟩
  rcases List.mem_cons.mp ht with ht | ht
  · exact absurd ht.symm (hplain t span)
  · rcases List.mem_cons.mp ht with ht | ht
    · obtain ⟨rfl, rfl⟩ := Print.copy.inj ht
      exact hu
    · exact h.copies t span ht

theorem Sound.writeCopy {t u : Text} {source : Span} (ht : t ≠ []) (hu : P u source)
    (h : Sound o P m n ps) : Sound o P m n (.write t :: .copy u source :: ps) :=
  h.pair hu (moves_write_copy o m ht u source) fun _ _ => Print.noConfusion

theorem Sound.freshLineCopy (ho : o.Indents) (hm : 0 < m) {u : Text} {source : Span}
    (hu : P u source) (h : Sound o P m n ps) :
    Sound o P m n (.freshLine :: .copy u source :: ps) :=
  h.pair hu (moves_freshLine_copy ho hm u source) fun _ _ => Print.noConfusion

theorem Sound.map_line {α : Type} (f : α → Text) (as : List α) :
    Sound o P n n (as.map fun a => .line (f a)) := by
  induction as with
  | nil => exact .nil
  | cons a as ih => exact .line (f a) ih

theorem sound_openBlock (header : Text) : Sound o P n (n + 1) (openBlock header) :=
  .freshLine (.line _ (.line _ (.indent .nil)))

theorem sound_closeBlock : Sound o P (n + 1) n closeBlock :=
  .freshLine (.dedent (.line _ .nil))

end Print

/-! ## The body -/

namespace Emission

theorem Sound.writeValue {t : Text} (ht : t ≠ []) {value : AttributeCode}
    (hvalue : ∀ c ∈ codeOfValue value, P c.1 c.2) (h : Sound o P m n ps) :
    Sound o P m n (.write t :: printValue value :: ps) := by
  cases value with
  | isSet => exact .write _ (.write _ h)
  | literal u => exact .write _ (.write _ h)
  | code u source => exact .writeCopy ht (hvalue (u, source) (List.mem_singleton_self _)) h

theorem sound_printCode (ho : o.Indents) (hn : 0 < n) {t : Text} {span : Span} (h : P t span) :
    Sound o P n n (printCode t span) := by
  unfold printCode
  split
  · exact .nil
  · exact .freshLineCopy ho hn h (.freshLine .nil)

theorem sound_printMarkup (kind : BodyKind) (s : BodyState) (t : Text) :
    Sound o P n n (printMarkup kind s t).2 := by
  unfold printMarkup
  split
  · exact .nil
  · split
    · exact .freshLine (.line _ .nil)
    · exact .freshLine (.line _ .nil)

theorem sound_printExpression (kind : BodyKind) (s : BodyState) {t : Text} {span : Span} (h : P t span) :
    Sound o P n n (printExpression kind s t span).2 := by
  unfold printExpression
  split
  · exact .nil
  · split
    · exact .freshLine (.writeCopy (by decide) h (.line _ .nil))
    · split
      · exact .freshLine (.writeCopy (by simp) h (.line _ .nil))
      · exact .freshLine (.writeCopy (by decide) h (.line _ .nil))

theorem sound_closeNested (tail : Text) : Sound o P (n + 1) n (closeNested tail) :=
  .dedent (.line _ (.line _ .nil))

/-- Where an emission leads from one depth to another, so do the instructions that print it. -/
theorem sound_print (ho : o.Indents) {base : Nat} (hbase : 0 < base) (kind : BodyKind)
    (s : BodyState) {e : Emission} {d d' : Nat} (h : e.depth? d = some d')
    (hcopies : ∀ c ∈ e.copies, P c.1 c.2) :
    Sound o P (base + d) (base + d') (print kind s e).2 := by
  -- what an emission opens or closes decides between three depths; the rest is read off what is printed for it
  cases e with
  | markup t =>
      rw [depth_eq_of_flat h rfl rfl]
      exact sound_printMarkup kind s t
  | expression t span =>
      rw [depth_eq_of_flat h rfl rfl]
      exact sound_printExpression kind s (hcopies (t, span) (List.mem_singleton_self _))
  | statement t span =>
      rw [depth_eq_of_flat h rfl rfl]
      exact sound_printCode ho (by omega) (hcopies (t, span) (List.mem_singleton_self _))
  | sectionStart name =>
      rw [depth_eq_of_opens h rfl]
      exact .freshLine (.write _ (.write _ (.line _ (.indent .nil))))
  | helperStart _ _ | fragmentStart _ =>
      rw [depth_eq_of_opens h rfl]
      exact .freshLine (.line _ (.indent .nil))
  | sectionEnd | helperContentEnd | fragmentEnd =>
      rw [depth_eq_of_closes h rfl rfl]
      exact sound_closeNested _
  | helperCreate _ =>
      rw [depth_eq_of_flat h rfl rfl]
      exact .line _ (.line _ .nil)
  | helperAttribute _ _ =>
      rw [depth_eq_of_flat h rfl rfl]
      exact .line _ .nil
  | helperEnd =>
      rw [depth_eq_of_flat h rfl rfl]
      exact .line _ (.line _ (.line _ .nil))
  | elementStart _ | elementEnd | componentStart _ | componentEnd =>
      rw [depth_eq_of_flat h rfl rfl]
      exact .freshLine (.line _ .nil)
  | helperProperty _ _ _ _ =>
      rw [depth_eq_of_flat h rfl rfl]
      exact Sound.writeValue (by simp) hcopies (.line _ (.line _ .nil))
  | setAttribute _ _ | key _ | reference _ _ | callback _ _ =>
      rw [depth_eq_of_flat h rfl rfl]
      exact Sound.writeValue (by simp) hcopies (.line _ .nil)

theorem sound_printAll (ho : o.Indents) {base : Nat} (hbase : 0 < base) (kind : BodyKind)
    (s : BodyState) {es : List Emission} {d d' : Nat} (h : es.foldlM depth? d = some d')
    (hcopies : ∀ e ∈ es, ∀ c ∈ e.copies, P c.1 c.2) :
    Sound o P (base + d) (base + d') (printAll kind s es) := by
  induction es generalizing s d with
  | nil =>
      rw [← Option.some.inj h]
      exact .nil
  | cons e es ih =>
      rw [List.foldlM_cons] at h
      rw [List.forall_mem_cons] at hcopies
      cases hdepth : e.depth? d with
      | none =>
          rw [hdepth] at h
          exact nomatch h
      | some d₁ =>
          rw [hdepth] at h
          exact (sound_print ho hbase kind s hdepth hcopies.1).append (ih _ h hcopies.2)

/-- Balanced emissions are printed at one depth. -/
theorem Balanced.sound_printAll (ho : o.Indents) (hn : 0 < n) (kind : BodyKind) (s : BodyState)
    {es : List Emission} (h : Balanced P es) : Sound o P n n (printAll kind s es) := by
  have := Emission.sound_printAll ho hn kind s (h.level 0) h.copies
  exact this

end Emission

/-! ## Around the body -/

namespace PageModel

variable {p : PageModel}

/-- What the values of the document's directives spell may be copied. -/
def ValuesIn (p : PageModel) (P : Text → Span → Prop) : Prop :=
  ∀ x ∈ p.document.directives, ∀ v ∈ x.2.values, P v.text v.span

theorem ValuesIn.of_directivesOf (h : p.ValuesIn P) {d : Directive} {use : DirectiveUse}
    (huse : use ∈ directivesOf p.document d) : ∀ v ∈ use.values, P v.text v.span := by
  obtain ⟨x, hx, rfl⟩ := List.mem_map.mp (List.mem_filter.mp huse).1
  exact h x hx

theorem ValuesIn.firstValues (h : p.ValuesIn P) {d : Directive} {v : DirectiveValue}
    (hv : v ∈ p.firstValues d) : P v.text v.span := by
  obtain ⟨use, huse, hhead⟩ := List.mem_filterMap.mp hv
  exact h.of_directivesOf huse v (List.mem_of_mem_head? hhead)

theorem ValuesIn.lastValue (h : p.ValuesIn P) {d : Directive} {v : DirectiveValue}
    (hv : p.lastValue? d = some v) : P v.text v.span :=
  h.firstValues (List.mem_of_getLast? hv)

theorem sound_printNamespace (h : p.ValuesIn P) : Sound o P 0 1 p.printNamespace := by
  unfold printNamespace
  refine Sound.append (m := 0) ?_ (.line _ (.indent .nil))
  split
  · next v hv => exact .writeCopy (by decide) (h.lastValue hv) (.line _ .nil)
  · exact .line _ .nil

theorem sound_printImports (h : p.ValuesIn P) : Sound o P n n p.printImports := by
  unfold printImports
  refine Sound.append (.map_line _ _) (.flatMap fun v hv => ?_)
  exact .writeCopy (by decide) (h.firstValues hv) (.line _ .nil)

theorem sound_printPageClass (h : p.ValuesIn P) (name : Text) :
    Sound o P n n (p.printPageClass name) := by
  unfold printPageClass
  refine Sound.append (m := n) ?_ (.line _ .nil)
  split
  · next v hv => exact .writeCopy (by simp) (h.lastValue hv) .nil
  · split
    · refine .write _ ?_
      unfold printModel
      split
      · next v hv => exact .writeCopy (by decide) (h.lastValue hv) (.write _ .nil)
      · exact .write _ (.write _ (.write _ .nil))
    · exact .write _ (.write _ .nil)

theorem sound_printComponentClass (h : p.ValuesIn P) (name : Text) :
    Sound o P n n (p.printComponentClass name) := by
  unfold printComponentClass
  refine Sound.append (m := n) (Sound.append (m := n) (Sound.append (m := n)
    (Sound.append (m := n) (.flatMap fun v hv => ?_) ?_) ?_) (.flatMap fun v hv => ?_)) ?_
  · exact .writeCopy (by simp) (h.firstValues hv) (.line _ .nil)
  · split
    · next v hv => exact .writeCopy (by simp) (h.lastValue hv) (.line _ .nil)
    · exact .nil
  · split
    · next v hv => exact .writeCopy (by simp) (h.lastValue hv) .nil
    · exact .write _ (.write _ .nil)
  · exact .writeCopy (by decide) (h.firstValues hv) .nil
  · exact .line _ .nil

theorem sound_printClass (h : p.ValuesIn P) : Sound o P n (n + 1) p.printClass := by
  unfold printClass
  refine Sound.append (m := n) ?_ (.line _ (.indent .nil))
  split
  · exact sound_printComponentClass h _
  · exact sound_printPageClass h _

theorem sound_printMethod (ho : o.Indents) (h : Emission.Balanced P p.emissions) :
    Sound o P n n p.printMethod := by
  have hbody := h.sound_printAll ho (Nat.succ_pos n) ⟨p.isComponent, p.options.designTime⟩ {}
  unfold printMethod
  dsimp only
  split
  · exact ((sound_openBlock _).append hbody).append sound_closeBlock
  · refine .line _ (Sound.append (m := n) ?_ (.line _ .nil))
    exact ((sound_openBlock _).append hbody).append sound_closeBlock

theorem sound_printDesignTimeField (p : PageModel) : Sound o P n n p.printDesignTimeField := by
  unfold printDesignTimeField
  split
  · exact .line _ (.line _ (.line _ .nil))
  · exact .nil

theorem sound_printInjections (h : p.ValuesIn P) : Sound o P n n p.printInjections := by
  unfold printInjections
  refine Sound.append (.flatMap fun i _ => .flatMap fun use _ => ?_) (.flatMap fun use huse => ?_)
  · split
    · exact .line _ (.line _ .nil)
    · exact .nil
  · split
    · next type member rest hvalues =>
        have hin := h.of_directivesOf huse
        rw [hvalues, List.forall_mem_cons, List.forall_mem_cons] at hin
        exact .line _ (.writeCopy (by simp) hin.1 (.writeCopy (by decide) hin.2.1 (.line _ .nil)))
    · exact .nil

theorem sound_printServices (p : PageModel) : Sound o P n n p.printServices := by
  unfold printServices
  split
  · exact .nil
  · exact .flatMap fun service _ => .line _ (.line _ .nil)

/-- The block of members of a directive is a tree under it. -/
theorem nodes_memberBlock {t block n : Tree} (h : memberBlock? t = some block)
    (hn : n ∈ block.nodes) : n ∈ t.nodes := by
  have hchild {kind : NodeKind} {u v : Tree} (h : firstChild? kind u = some v) :
      v ∈ u.children :=
    (List.mem_filter.mp (List.mem_of_find?_eq_some h)).1
  cases hbody : firstChild? .directiveBody t with
  | none =>
      rw [memberBlock?, hbody] at h
      exact nomatch h
  | some body =>
      rw [memberBlock?, hbody] at h
      exact Tree.nodes_subset_of_mem_children (hchild hbody)
        (Tree.nodes_subset_of_mem_children (hchild h) hn)

theorem sound_printMembers (ho : o.Indents) (hn : 0 < n)
    (h : ∀ t ∈ p.document.root.nodes, t.Copies P) : Sound o P n n p.printMembers := by
  refine .flatMap fun block hblock => .flatMap fun t ht => ?_
  obtain ⟨⟨directive, use⟩, hx, hsome⟩ := List.mem_filterMap.mp hblock
  obtain ⟨hdescendant, hkind⟩ := List.mem_filter.mp ht
  obtain ⟨u, hu, hdirective⟩ := List.mem_filterMap.mp hx
  obtain ⟨use', -, heq⟩ := Option.map_eq_some_iff.mp hdirective
  rw [← (Prod.mk.inj heq).1] at hsome
  dsimp only at hsome
  split at hsome
  · have hroot := Tree.nodes_trans (Tree.mem_nodes_of_mem_descendants hu)
      (nodes_memberBlock hsome (Tree.mem_nodes_of_mem_descendants hdescendant))
    exact Emission.sound_printCode ho hn ((h t hroot).text (Or.inl (eq_of_beq hkind)))
  · exact nomatch hsome

theorem sound_printHelperFields (p : PageModel) : Sound o P n n p.printHelperFields := by
  unfold printHelperFields
  split
  · exact .nil
  · exact .line _ (.line _ (.line _ (.line _ (.line _ (.map_line _ _)))))

/-- The generated C# keeps apart what it copies, copies nothing but values of directives and what its
    nodes hold, and is not indented behind it. -/
theorem sound_prints (ho : o.Indents) (hvalues : p.ValuesIn P)
    (hnodes : ∀ t ∈ p.document.root.nodes, t.Copies P) : Sound o P 0 0 p.prints := by
  have hbody : Emission.Balanced P p.emissions := Tree.balanced_emissions p.isComponent hnodes
  have hlead : Sound o P 0 0 [.line "// <auto-generated/>", .line "#pragma warning disable 1591"] :=
    .line _ (.line _ .nil)
  have hhidden : Sound o P 1 1 [.line "#line hidden"] := .line _ .nil
  have hrestore : Sound o P 0 0 [.line "#pragma warning restore 1591"] := .line _ .nil
  have hopened := (((hlead.append (sound_printNamespace hvalues)).append hhidden).append
    (sound_printImports hvalues)).append (sound_printClass hvalues)
  have hmembers := ((((hopened.append (sound_printMethod ho hbody)).append
    (sound_printDesignTimeField p)).append (sound_printInjections hvalues)).append
    (sound_printServices p)).append (sound_printMembers ho (Nat.succ_pos 1) hnodes)
  exact (((hmembers.append (sound_printHelperFields p)).append sound_closeBlock).append
    sound_closeBlock).append hrestore

end PageModel

end RazorLang
