import RazorLang.Grammar.Directive
import RazorLang.Proofs.Grammar.Block

/-!
# Directives: what is read

The parts of a directive grow by what its rules read (`Enlarges`): its trees by nodes over the tokens, and
its values by texts that some of the same tokens spell. A line for tag helpers is apart, because its code has a
label (`AddsLine`). Main statement: `directive_reads`.
-/

namespace RazorLang

open RazorLang.Tree

/-! ## Values and the tokens they are read from -/

namespace DirectiveValue

variable {v : DirectiveValue} {ts : List Token}

theorem IsReadFrom.append (h : v.IsReadFrom ts) (us : List Token) : v.IsReadFrom (ts ++ us) := by
  obtain ⟨before, first, given, after, rest, rfl, htext, hwhole, hspan⟩ := h
  exact ⟨before, first, given, after ++ us, rest, by simp, htext, hwhole, hspan⟩

theorem IsReadFrom.prepend (h : v.IsReadFrom ts) (us : List Token) : v.IsReadFrom (us ++ ts) := by
  obtain ⟨before, first, given, after, rest, rfl, htext, hwhole, hspan⟩ := h
  exact ⟨us ++ before, first, given, after, rest, by simp, htext, hwhole, hspan⟩

end DirectiveValue

theorem Text.dropEndWhile_prefix (p : Char → Bool) (t : Text) : Text.dropEndWhile p t <+: t := by
  have h := List.dropWhile_suffix (l := t.reverse) p
  rw [← List.reverse_prefix, List.reverse_reverse] at h
  exact h

theorem Text.trimEnd_prefix (t : Text) : Text.trimEnd t <+: t := Text.dropEndWhile_prefix _ t

/-- A text without white space at its end does not end with a `\r`. -/
theorem Text.getLast?_trimEnd_ne (t : Text) : (Text.trimEnd t).getLast? ≠ some '\r' := by
  rw [Text.trimEnd, Text.dropEndWhile, List.getLast?_reverse]
  intro h
  have hspace := List.head?_dropWhile_not Text.isSpace t.reverse
  rw [h] at hspace
  exact absurd hspace (by decide)

namespace Grammar

open Reader

/-- A value that some tokens ahead spell at their front. -/
theorem Reads.isReadFrom {r r' : Reader} {ts given more : List Token} {text rest : Text}
    (kind : ValueKind) (h : r.Reads ts r') (hts : ts = given ++ more) (hgiven : given ≠ [])
    (htext : contentOf given = text ++ rest) (hwhole : ¬ Text.PartsBreak text rest) :
    DirectiveValue.IsReadFrom
      ⟨kind, text, ⟨r.tokenizer.path, r.tokenizer.place, Text.size text⟩⟩ ts := by
  subst hts
  cases given with
  | nil => exact absurd rfl hgiven
  | cons first given =>
      have hspan : first.span = ⟨r.tokenizer.path, r.tokenizer.place, _⟩ := h.run.head_span
      refine ⟨[], first, given, more, rest, rfl, htext, hwhole, ?_⟩
      rw [hspan]

/-! ## Tokens of values -/

theorem bracketTurn_collects (opener closer : TokenKind) (ts : List Token) {r : Reader}
    (hnext : HasNext r) : Gives (bracketTurn opener closer ts) r (Collects r ts) := by
  unfold bracketTurn
  simp only [gives_bind]
  refine (takeBalanced_reads opener closer r).mono ?_
  rintro p r' ⟨htaken, hless⟩
  split
  · exact .again htaken (hless hnext) ts
  · exact .done htaken ts

theorem typeTurn_collects (ts : List Token) (r : Reader) :
    Gives (typeTurn ts) r (Collects r ts) := by
  have hdot (hnext : HasNext r) : Gives (do
      if ← memberAt 1 then return .again (ts ++ (← take 2)) else return .done ts) r
      (Collects r ts) := by
    simp only [gives_bind]
    refine (memberAt_looks 1).gives fun member => ?_
    split
    · simp only [gives_bind, gives_pure]
      refine (take_reads 2 r).mono ?_
      rintro taken r' ⟨htaken, hless⟩
      exact .again htaken (hless (by omega) hnext) ts
    · exact .stop r ts
  unfold typeTurn
  rw [gives_bind, gives_kind?]
  split
  · next hkind => exact hdot (hasNext_of_kind hkind)
  · next hkind => exact hdot (hasNext_of_kind hkind)
  · next hkind => exact bracketTurn_collects _ _ ts (hasNext_of_kind hkind)
  · next hkind => exact bracketTurn_collects _ _ ts (hasNext_of_kind hkind)
  · next hkind =>
      simp only [gives_bind, gives_pure]
      refine (bump_reads r).mono ?_
      rintro taken r' ⟨htaken, hless, _⟩
      exact .again htaken (hless (hasNext_of_kind hkind)) ts
  · exact .stop r ts

theorem typeName_reads (r : Reader) : Gives typeName r r.Reads := by
  have hloop {ts : List Token} {r' : Reader} (hts : r.Reads ts r') :
      Gives (loop typeTurn ts) r' r.Reads :=
    (gives_loop_collects typeTurn_collects ts r').mono fun _ _ h => hts.trans_adds h
  have hname : Gives (do loop typeTurn (← bump)) r r.Reads := by
    simp only [gives_bind]
    refine (bump_reads r).mono ?_
    rintro ts r' ⟨hts, _⟩
    exact hloop hts
  unfold typeName
  rw [gives_bind, gives_kind?]
  split
  · exact hname
  · exact hname
  · simp only [gives_bind]
    refine (takeBalanced_reads .openParen .closeParen r).mono ?_
    rintro p r' ⟨htaken, _⟩
    split
    · exact hloop htaken
    · exact htaken
  · exact Reads.refl r

theorem dottedTurn_collects (ts : List Token) (r : Reader) :
    Gives (dottedTurn ts) r (Collects r ts) := by
  unfold dottedTurn
  simp only [gives_bind, gives_isAt]
  refine (memberAt_looks 1).gives fun member => ?_
  split
  · next hdot =>
      simp only [gives_bind, gives_pure]
      rw [Bool.and_eq_true, beq_iff_eq] at hdot
      refine (take_reads 2 r).mono ?_
      rintro taken r' ⟨htaken, hless⟩
      exact .again htaken (hless (by omega) (hasNext_of_kind hdot.1)) ts
  · exact .stop r ts

theorem dottedName_reads (r : Reader) : Gives dottedName r r.Reads := by
  unfold dottedName
  simp only [gives_bind]
  refine (memberAt_looks 0).gives fun member => ?_
  split
  · simp only [gives_bind]
    refine (bump_reads r).mono ?_
    rintro ts r' ⟨hts, _⟩
    exact (gives_loop_collects dottedTurn_collects ts r').mono fun _ _ h => hts.trans_adds h
  · exact Reads.refl r

theorem single_reads (kind : TokenKind) (r : Reader) : Gives (single kind) r r.Reads := by
  unfold single
  simp only [gives_bind, gives_isAt]
  split
  · exact (bump_reads r).mono fun _ _ h => h.1
  · exact Reads.refl r

theorem lineRest_reads (r : Reader) : Gives lineRest r r.Reads := takeWhile_reads _ r

theorem valueTokens_reads (kind : ValueKind) (r : Reader) :
    Gives (valueTokens kind) r r.Reads := by
  cases kind with
  | type => exact typeName_reads r
  | member => exact single_reads .identifier r
  | namespaceName => exact dottedName_reads r
  | optionalString => exact single_reads .string r
  | text => exact lineRest_reads r

/-! ## Parts of a directive -/

namespace DirectiveParts

/-- The tokens of the parts of a directive. -/
def tokens (p : DirectiveParts) : List Token := tokensAll p.trees

/-- The parts of a directive are such as the grammar builds. -/
structure Sound (p : DirectiveParts) : Prop where
  trees : AllParsed p.trees
  values : ∀ v ∈ p.values, v.IsReadFrom p.tokens

end DirectiveParts

/-- The parts of a directive grow by the tokens that are read. -/
def Enlarges (r : Reader) (p p' : DirectiveParts) (r' : Reader) : Prop :=
  r.Adds p.tokens p'.tokens r' ∧ (p.Sound → p'.Sound)

section Enlarges

variable {r r' r'' : Reader} {p p' p'' : DirectiveParts} {trees : List Tree}

theorem Enlarges.refl (r : Reader) (p : DirectiveParts) : Enlarges r p p r := ⟨Adds.refl r _, id⟩

theorem Enlarges.trans (h : Enlarges r p p' r') (h' : Enlarges r' p' p'' r'') :
    Enlarges r p p'' r'' := ⟨h.1.trans h'.1, h'.2 ∘ h.2⟩

theorem Enlarges.left (h : Enlarges r p p' r') : r'.left ≤ r.left := h.1.left

theorem Enlarges.trans_nil (h : Enlarges r p p' r') (h' : r'.Reads [] r'') :
    Enlarges r p p' r'' := ⟨h.1.trans_nil h', h.2⟩

/-- Noting that something is missing changes neither trees nor values. -/
theorem Enlarges.broken (h : Enlarges r p p' r') : Enlarges r p p'.broken r' :=
  ⟨h.1, fun hp => ⟨(h.2 hp).trees, (h.2 hp).values⟩⟩

theorem Enlarges.add (h : r.Reads (tokensAll trees) r') (hall : AllParsed trees)
    (p : DirectiveParts) : Enlarges r p (p.add trees) r' := by
  have htokens : (p.add trees).tokens = p.tokens ++ tokensAll trees := tokensAll_append ..
  refine ⟨⟨tokensAll trees, htokens, h⟩, fun hp => ⟨hp.trees.append hall, ?_⟩⟩
  intro v hv
  rw [htokens]
  exact (hp.values v hv).append _

/-- A value comes with the trees that it is read from. -/
theorem Enlarges.addValue {v : DirectiveValue} (h : r.Reads (tokensAll trees) r')
    (hall : AllParsed trees) (hv : v.IsReadFrom (tokensAll trees)) (p : DirectiveParts) :
    Enlarges r p ((p.addValue v).add trees) r' := by
  have htokens : ((p.addValue v).add trees).tokens = p.tokens ++ tokensAll trees :=
    tokensAll_append ..
  refine ⟨⟨tokensAll trees, htokens, h⟩, fun hp => ⟨hp.trees.append hall, ?_⟩⟩
  intro w hw
  rw [htokens]
  rcases List.mem_append.mp hw with hw | hw
  · exact (hp.values w hw).append _
  · rw [List.mem_singleton.mp hw]
    exact hv.prepend _

end Enlarges

/-- A piece of code has the tokens that it is made of. -/
theorem codePiece_gives (ts : List Token) (r : Reader) :
    Gives (codePiece ts) r fun trees r' => r' = r ∧ tokensAll trees = ts ∧ AllParsed trees := by
  unfold codePiece
  split
  · next hnone =>
      rw [List.isEmpty_iff.mp hnone]
      exact ⟨rfl, tokensAll_nil, allParsed_nil⟩
  · simp only [gives_bind, gives_nodeOver, gives_pure]
    exact ⟨trivial, by simp, .single (.code ts _)⟩

/-- Tokens that have been read are added as a piece of code. -/
theorem codePiece_enlarges {r r' : Reader} {ts : List Token} (h : r.Reads ts r')
    (p : DirectiveParts) :
    Gives (codePiece ts) r' fun trees r'' => Enlarges r p (p.add trees) r'' := by
  refine (codePiece_gives ts r').mono ?_
  rintro trees r'' ⟨hr, htrees, hall⟩
  subst hr
  rw [← htrees] at h
  exact .add h hall p

theorem values_enlarges (d : Directive) (kinds : List ValueKind) (p : DirectiveParts)
    (r : Reader) : Gives (values d kinds p) r (Enlarges r p) := by
  induction kinds generalizing p r with
  | nil => exact Enlarges.refl r p
  | cons kind kinds ih =>
      rw [values]
      simp only [gives_bind, gives_here]
      refine (takeTrivia_reads false r).mono fun blank r₁ hblank => ?_
      refine (valueTokens_reads kind r₁).mono fun ts r₂ hts => ?_
      have hboth := hblank.trans hts
      by_cases hnone : ts = []
      · subst hnone
        rw [List.append_nil] at hboth
        split
        · simp only [gives_bind, gives_here, gives_pure]
          refine (report_reads _ _ r₂).mono fun _ r₃ hreport => ?_
          exact (codePiece_enlarges (hboth.trans_nil hreport) p).mono fun _ _ h => h.broken
        · simp only [gives_bind, List.isEmpty_nil, if_true, List.append_nil]
          refine (codePiece_enlarges hboth p).mono fun trees r₃ hp => ?_
          exact (ih (p.add trees) r₃).mono fun _ _ hrest => hp.trans hrest
      · rw [if_neg (by simp [hnone])]
        simp only [gives_bind, List.isEmpty_eq_false_iff.mpr hnone, Bool.false_eq_true, if_false]
        refine (codePiece_gives (blank ++ ts) r₂).mono ?_
        rintro trees r₃ ⟨hr, htrees, hall⟩
        subst hr
        rw [← htrees] at hboth
        have hv : DirectiveValue.IsReadFrom
            (valueOf kind ts (Span.empty r₁.tokenizer.path r₁.tokenizer.place))
            (tokensAll trees) := by
          rw [htrees]
          have hgiven := Reads.isReadFrom kind hts (List.append_nil ts).symm hnone
            (List.append_nil _).symm (Text.not_partsBreak_nil_right _)
          exact hgiven.prepend blank
        exact (ih _ r₃).mono fun p' r₄ hrest => (Enlarges.addValue hboth hall hv p).trans hrest

theorem staticWord_reads (isStatic : Bool) (r : Reader) :
    Gives (staticWord isStatic) r r.Reads := by
  unfold staticWord
  split
  · simp only [gives_bind, gives_pure]
    refine (bump_reads r).mono ?_
    rintro word r₁ ⟨hword, _⟩
    exact (takeTrivia_reads false r₁).mono fun blank r₂ hblank => hword.trans hblank
  · exact Reads.refl r

/-- The value of an import is read from its code, behind the white space before it. -/
theorem addImport_enlarges {r r₁ r₂ : Reader} {blank given literal : List Token}
    (more : List Token) (hblank : r.Reads blank r₁) (hts : r₁.Reads (given ++ more) r₂)
    (hgiven : given ≠ []) (hliteral : literal = blank ++ (given ++ more)) (p : DirectiveParts)
    (isStatic : Bool) (target : List Token) (shortName : Option Text) :
    Gives (addImport p isStatic (Span.empty r₁.tokenizer.path r₁.tokenizer.place) given literal
      target shortName) r₂ (Enlarges r p) := by
  have hboth := hblank.trans hts
  have hv := (Reads.isReadFrom .namespaceName hts rfl hgiven (List.append_nil _).symm
    (Text.not_partsBreak_nil_right _)).prepend blank
  rw [← hliteral] at hboth hv
  unfold addImport
  simp only [gives_bind, gives_here, gives_pure]
  refine Enlarges.addValue ?_ (.single (.importCode ..)) ?_ p
  · simpa using hboth
  · simpa [valueOf, Span.empty] using hv

theorem importValue_enlarges (p : DirectiveParts) (r : Reader) :
    Gives (importValue p) r (Enlarges r p) := by
  unfold importValue
  simp only [gives_bind, gives_here, gives_peek?]
  refine (takeTrivia_reads false r).mono fun blank r₁ hblank => ?_
  refine (staticWord_reads _ r₁).mono fun lead r₂ hlead => ?_
  refine (typeName_reads r₂).mono fun first r₃ hfirst => ?_
  split
  · next hnone =>
      rw [List.isEmpty_iff.mp hnone] at hfirst
      simp only [gives_bind, gives_here, gives_pure]
      refine (report_reads _ _ r₃).mono fun _ r₄ hreport => ?_
      have hts := hblank.trans (hlead.trans_nil hfirst)
      exact codePiece_enlarges (hts.trans_nil hreport) p
  · next hsome =>
      -- the import is not empty, whatever is read behind its first name
      have hgiven (more : List Token) : lead ++ first ++ more ≠ [] := by
        rw [List.isEmpty_iff] at hsome
        simp [hsome]
      simp only [gives_bind, gives_placeBehind, gives_kindAt?]
      split
      · simp only [gives_bind]
        refine (take_reads _ r₃).mono ?_
        rintro sign r₄ ⟨hsign, _⟩
        refine (takeTrivia_reads false r₄).mono fun gap r₅ hgap => ?_
        refine (typeName_reads r₅).mono fun target r₆ htarget => ?_
        have hts := hlead.trans (hfirst.trans (hsign.trans (hgap.trans htarget)))
        split
        · next hnone =>
            rw [List.isEmpty_iff.mp hnone] at hts
            simp only [gives_bind, gives_here]
            refine (report_reads _ _ r₆).mono fun _ r₇ hreport => ?_
            refine addImport_enlarges (sign ++ gap) hblank ?_ ?_ ?_ p _ _ _
            · simpa using hts.trans_nil hreport
            · simpa using hgiven []
            · simp
        · refine addImport_enlarges [] hblank ?_ ?_ ?_ p _ _ _
          · simpa using hts
          · simpa using hgiven (sign ++ (gap ++ target))
          · simp
      · refine addImport_enlarges [] hblank ?_ ?_ ?_ p _ _ _
        · simpa using hlead.trans hfirst
        · simpa using hgiven []
        · simp

/-! ## Lines for tag helpers -/

/-- What the rest of a line for tag helpers adds to the parts of a directive: code with the label that the text of
    the line gives, the values that have the text, and some marks. -/
structure AddsLine {d : Directive} (h : d.shape = .restOfLine) (r : Reader) (p p' : DirectiveParts) (code : Tree)
    (after : List Tree) (given : List DirectiveValue) (r' : Reader) : Prop where
  trees : p'.trees = p.trees ++ code :: after
  values : p'.values = p.values ++ given
  reads : r.Reads (tokensAll (code :: after)) r'
  labeled : code.IsCodeOf ⟨d, h, (DirectiveUse.mk d given).firstText?.getD []⟩
  marks : ∀ t ∈ after, t.IsMark
  sound : ∀ v ∈ given, v.IsReadFrom code.tokens

theorem tagHelperLine_adds {d : Directive} (h : d.shape = .restOfLine) (p : DirectiveParts) (r : Reader) :
    Gives (tagHelperLine d p) r fun p' r' => ∃ code given, AddsLine h r p p' code [] given r' := by
  unfold tagHelperLine
  simp only [gives_bind, gives_here]
  refine (takeTrivia_reads false r).mono fun blank r₁ hblank => ?_
  refine (lineRest_reads r₁).mono fun ts r₂ hts => ?_
  have hboth := hblank.trans hts
  have hnomarks : ∀ t ∈ ([] : List Tree), t.IsMark := fun t ht => absurd ht List.not_mem_nil
  by_cases hnone : Text.trimEnd (contentOf ts) = []
  · rw [hnone]
    simp only [List.isEmpty_nil, if_true, gives_bind, gives_pure]
    refine (report_reads _ _ r₂).mono fun _ r₃ hreport => ?_
    refine ⟨_, [], rfl, (List.append_nil _).symm, ?_, ?_, hnomarks, ?_⟩
    · simpa using hboth.trans_nil hreport
    · exact ⟨_, _, _, ⟨_, rfl⟩, rfl⟩
    · exact fun v hv => absurd hv List.not_mem_nil
  · simp only [List.isEmpty_eq_false_iff.mpr hnone, Bool.false_eq_true, if_false, gives_pure]
    obtain ⟨rest, hrest⟩ := Text.trimEnd_prefix (contentOf ts)
    have hgiven : ts ≠ [] := by
      rintro rfl
      exact hnone rfl
    have hv := Reads.isReadFrom .text hts (List.append_nil ts).symm hgiven hrest.symm
      fun hparts => Text.getLast?_trimEnd_ne _ hparts.1
    refine ⟨_, [_], rfl, rfl, ?_, ?_, hnomarks, ?_⟩
    · simpa using hboth
    · exact ⟨_, _, _, ⟨_, rfl⟩, rfl⟩
    · intro v hmem
      rw [List.mem_singleton.mp hmem]
      simpa [Span.empty] using hv.prepend blank

/-! ## Blocks -/

theorem openBlock_enlarges (d : Directive) (p : DirectiveParts) (r : Reader) :
    Gives (openBlock d p) r (Enlarges r p) := by
  unfold openBlock
  simp only [gives_bind, gives_isAt]
  refine (takeTrivia_reads true r).mono fun blank r₁ hblank => ?_
  split
  · simp only [gives_bind, gives_nodeOver, gives_pure]
    refine (bump_reads r₁).mono ?_
    rintro brace r₂ ⟨hbrace, _⟩
    refine Enlarges.add ?_ (.single (.leaf rfl (blank ++ brace) _)) p
    simpa using hblank.trans hbrace
  · simp only [gives_bind, gives_here, gives_pure]
    refine (report_reads _ _ r₁).mono fun _ r₂ hreport => ?_
    exact (codePiece_enlarges (hblank.trans_nil hreport) p).mono fun _ _ h => h.broken

section

variable {c : Surroundings} {bound : Nat}

theorem memberBlock_enlarges (hc : c.Sound bound) (d : Directive) (p : DirectiveParts)
    {r : Reader} (hr : r.left < bound) : Gives (memberBlock c d p) r (Enlarges r p) := by
  unfold memberBlock
  simp only [gives_bind]
  refine (openBlock_enlarges d p r).mono fun p₁ r₁ hopen => ?_
  have hr₁ := hopen.left
  split
  · exact hopen
  · simp only [gives_bind, gives_pure]
    refine (codeBlockNode_reads hc (r := r₁) (by omega)).mono ?_
    rintro code r₂ ⟨hcode, hparsed⟩
    refine (closeBraceNode_reads r₂).mono ?_
    rintro closed r₃ ⟨hclosed, hall⟩
    have hadd : Enlarges r p (p₁.add (code :: closed)) r₃ :=
      hopen.trans (.add (by simpa using hcode.trans hclosed) (.cons hparsed hall) p₁)
    split
    · exact hadd.broken
    · exact hadd

theorem markupBlock_enlarges (hc : c.Sound bound) (d : Directive) (p : DirectiveParts)
    {r : Reader} (hr : r.left < bound) : Gives (markupBlock c d p) r (Enlarges r p) := by
  unfold markupBlock
  simp only [gives_bind]
  refine (openBlock_enlarges d p r).mono fun p₁ r₁ hopen => ?_
  have hr₁ := hopen.left
  split
  · exact hopen
  · simp only [gives_bind, gives_here]
    refine (switchTo_reads .html r₁).mono fun _ r₂ hswitch => ?_
    have hr₂ := hswitch.left
    refine (hc .section r₂ (by omega)).mono ?_
    rintro trees r₃ ⟨htrees, hparsed, _⟩
    refine (closeBraceNode_reads r₃).mono ?_
    rintro closed r₄ ⟨hclosed, hall⟩
    have hread (place : Span) :
        r₁.Reads (tokensAll (Tree.spanning .markupBlock trees place :: closed)) r₄ := by
      simpa using hswitch.trans (htrees.trans hclosed)
    have hblock (place : Span) :
        Enlarges r p (p₁.add (Tree.spanning .markupBlock trees place :: closed)) r₄ :=
      hopen.trans (.add (hread place) (AllParsed.cons (.branch rfl hparsed place) hall) p₁)
    split
    · simp only [gives_bind, gives_here, gives_pure]
      exact (report_reads _ _ r₄).mono fun _ r₅ hreport => ((hblock _).trans_nil hreport).broken
    · exact hblock _

/-! ## The whole directive -/

theorem lineEndCount?_looks (semicolon : Bool) : Looks (lineEndCount? semicolon) := by
  intro r
  unfold lineEndCount?
  simp only [gives_bind, gives_placeBehind, gives_kindAt?]
  split
  · simp only [gives_bind, gives_placeBehind, gives_kindAt?]
    split
    all_goals rfl
  · simp only [gives_bind, gives_pure, gives_kindAt?]
    split
    all_goals rfl

theorem lineEnd_marks (semicolon : Bool) (p : DirectiveParts) (r : Reader) :
    Gives (lineEnd semicolon p) r fun p' r' => ∃ trees, p' = p.add trees ∧ r.Reads (tokensAll trees) r' ∧
      ∀ t ∈ trees, t.IsMark := by
  have hnone {r' : Reader} (h : r.Reads [] r') : ∃ trees, p = p.add trees ∧ r.Reads (tokensAll trees) r' ∧
      ∀ t ∈ trees, t.IsMark :=
    ⟨[], by rw [DirectiveParts.add, List.append_nil], h, fun t ht => absurd ht List.not_mem_nil⟩
  unfold lineEnd
  simp only [gives_bind]
  refine (switchTo_reads .csharp r).mono fun _ r₁ hswitch => ?_
  refine (lineEndCount?_looks semicolon).gives fun count => ?_
  split
  · simp only [gives_bind]
    refine (take_reads _ r₁).mono ?_
    rintro ts r₂ ⟨hts, _⟩
    have hread := hswitch.trans hts
    split
    · next hempty =>
        rw [List.isEmpty_iff.mp hempty] at hread
        exact hnone hread
    · simp only [gives_bind, gives_nodeOver, gives_pure]
      refine ⟨_, rfl, by simpa using hread, fun t ht => ?_⟩
      exact ⟨.metaCode, ts, _, Or.inr rfl, List.mem_singleton.mp ht⟩
  · exact hnone hswitch

theorem lineEnd_enlarges (semicolon : Bool) (p : DirectiveParts) (r : Reader) :
    Gives (lineEnd semicolon p) r (Enlarges r p) := by
  refine (lineEnd_marks semicolon p r).mono ?_
  rintro _ r' ⟨trees, rfl, hread, hmarks⟩
  exact .add hread (fun t ht => (hmarks t ht).parsed) p

theorem directiveParts_line {d : Directive} (h : d.shape = .restOfLine) (p : DirectiveParts) (r : Reader) :
    Gives (directiveParts c d p) r fun p' r' => ∃ code after given, AddsLine h r p p' code after given r' := by
  have hdefine : directiveParts c d p = (tagHelperLine d p >>= lineEnd false) := by
    have hne : d ≠ .importNamespace := by
      rintro rfl
      exact nomatch h
    rw [directiveParts, if_neg hne, h]
  rw [hdefine]
  simp only [gives_bind]
  refine (tagHelperLine_adds h p r).mono ?_
  rintro p₁ r₁ ⟨code, given, hline⟩
  refine (lineEnd_marks false p₁ r₁).mono ?_
  rintro _ r₂ ⟨after, rfl, hread, hmarks⟩
  refine ⟨code, after, given, ?_, hline.values, ?_, hline.labeled, hmarks, hline.sound⟩
  · rw [DirectiveParts.add, hline.trees, List.append_assoc, List.singleton_append]
  · simpa using hline.reads.trans hread

theorem directiveParts_enlarges (hc : c.Sound bound) {d : Directive} (h : d.shape ≠ .restOfLine)
    (p : DirectiveParts) {r : Reader} (hr : r.left < bound) :
    Gives (directiveParts c d p) r (Enlarges r p) := by
  have hline {g : Grammar DirectiveParts} {semicolon : Bool} {r' : Reader}
      (hg : Gives g r' (Enlarges r p)) :
      Gives (do
        let p' ← g
        if p'.complete then lineEnd semicolon p' else return p') r' (Enlarges r p) := by
    simp only [gives_bind]
    refine hg.mono fun p' r'' hp' => ?_
    split
    · exact (lineEnd_enlarges semicolon p' r'').mono fun _ _ h => hp'.trans h
    · exact hp'
  unfold directiveParts
  split
  · simp only [gives_bind]
    refine (importValue_enlarges p r).mono fun p₁ r₁ hp₁ => ?_
    exact (lineEnd_enlarges true p₁ r₁).mono fun _ _ h => hp₁.trans h
  · split
    · next kinds _ => exact hline (values_enlarges d kinds p r)
    · next hline => exact absurd hline h
    · exact hline (memberBlock_enlarges hc d p hr)
    · next kinds _ =>
        simp only [gives_bind]
        refine (values_enlarges d kinds p r).mono fun p₁ r₁ hp₁ => ?_
        have hr₁ := hp₁.left
        split
        · exact hp₁
        · exact hline ((markupBlock_enlarges hc d p₁ (r := r₁) (by omega)).mono
            fun _ _ h => hp₁.trans h)

theorem directive_reads (hc : c.Sound bound) {transition : Tree} (hmark : transition.IsMark)
    (d : Directive) {r : Reader} (hr : r.left < bound) :
    Gives (directive c transition d) r fun t r' =>
      r.Adds transition.tokens t.tokens r' ∧ t.Parsed := by
  unfold directive
  simp only [gives_bind, gives_nodeOver, gives_pure]
  refine (bump_reads r).mono ?_
  rintro name r₁ ⟨hname, _⟩
  have hr₁ := hname.left
  -- What a line for tag helpers adds is not sound part by part: its code has the label of the whole line.
  by_cases hshape : d.shape = .restOfLine
  · refine (directiveParts_line hshape _ r₁).mono ?_
    rintro p r₂ ⟨code, after, given, hline⟩
    obtain ⟨trees, values, complete⟩ := p
    obtain rfl : trees = _ := hline.trees
    obtain rfl : values = given := hline.values
    have hmarks (place : Span) : ∀ t ∈ [Tree.overTokens .metaCode name place] ++ after, t.IsMark :=
      List.forall_mem_cons.mpr ⟨⟨.metaCode, name, place, Or.inr rfl, rfl⟩, hline.marks⟩
    have huse : DirectiveUse.line? ⟨d, values⟩ = some ⟨d, hshape, _⟩ := dif_pos hshape
    refine ⟨?_, .line huse hmark (hmarks _) hline.labeled _ _ ?_⟩
    · simpa using (hname.trans hline.reads).adds transition.tokens
    · intro v hv
      simpa using ((hline.sound v hv).prepend (transition.tokens ++ name)).append (tokensAll after)
  · refine (directiveParts_enlarges hc hshape _ (r := r₁) (by omega)).mono ?_
    rintro p r₂ ⟨hadds, hsound⟩
    have hp : p.Sound := hsound
      ⟨.single (.leaf rfl name _), fun v hv => absurd hv List.not_mem_nil⟩
    have hread := hname.trans_adds (by simpa [DirectiveParts.tokens] using hadds)
    refine ⟨?_, .directive hshape (AllParsed.cons hmark.parsed (.single (.branch rfl hp.trees _))) ?_ _⟩
    · simpa using hread.adds transition.tokens
    · intro v hv
      simpa [DirectiveParts.tokens] using (hp.values v hv).prepend transition.tokens

end

end Grammar

end RazorLang
