import RazorLang.Proofs.Grammar.CodeDerivation

/-!
# Derivations of directives and transitions

The parts of a directive grow by trees that are derived. The block of a directive, like that of a statement,
can be left open at the end of the source, and then nothing follows it (`DirectiveParts.Ends`).

Main statement: `codeTransition_derives` — what a transition leads to is derived, from the transition on.
-/

namespace RazorLang.Grammar

open RazorLang.Tree Reader

/-! ## Values -/

theorem bracketTurn_silent (opener closer : TokenKind) (ts : List Token) :
    Silent (bracketTurn opener closer ts) :=
  (takeBalanced_silent opener closer).bind fun _ => silent_ite (silent_pure _) (silent_pure _)

theorem typeTurn_silent (ts : List Token) : Silent (typeTurn ts) := by
  have hdot : Silent (do if ← memberAt 1 then return Turn.again (ts ++ (← take 2)) else return Turn.done ts) :=
    silent_look (memberAt_looks 1) fun _ => silent_ite ((take_silent 2).bind fun _ => silent_pure _) (silent_pure _)
  refine silent_look (fun _ => rfl) fun kind => ?_
  split
  · exact hdot
  · exact hdot
  · exact bracketTurn_silent _ _ ts
  · exact bracketTurn_silent _ _ ts
  · exact bump_silent.bind fun _ => silent_pure _
  · exact silent_pure _

theorem typeName_silent : Silent typeName := by
  refine silent_look (fun _ => rfl) fun kind => ?_
  split
  · exact bump_silent.bind fun _ => silent_loop typeTurn_silent _
  · exact bump_silent.bind fun _ => silent_loop typeTurn_silent _
  · exact (takeBalanced_silent _ _).bind fun _ => silent_ite (silent_loop typeTurn_silent _) (silent_pure _)
  · exact silent_pure _

theorem dottedName_silent : Silent dottedName := by
  refine silent_look (memberAt_looks 0) fun _ => silent_ite ?_ (silent_pure _)
  refine bump_silent.bind fun _ => silent_loop (fun ts => ?_) _
  refine silent_look (fun _ => rfl) fun _ => silent_look (memberAt_looks 1) fun _ => ?_
  exact silent_ite ((take_silent 2).bind fun _ => silent_pure _) (silent_pure _)

theorem single_silent (kind : TokenKind) : Silent (single kind) :=
  silent_look (fun _ => rfl) fun _ => silent_ite bump_silent (silent_pure _)

theorem valueTokens_silent (kind : ValueKind) : Silent (valueTokens kind) := by
  cases kind with
  | type => exact typeName_silent
  | member => exact single_silent .identifier
  | namespaceName => exact dottedName_silent
  | optionalString => exact single_silent .string
  | text => exact takeWhile_silent _

theorem staticWord_silent (isStatic : Bool) : Silent (staticWord isStatic) := by
  refine silent_ite ?_ (silent_pure _)
  exact bump_silent.bind fun _ => (takeWhile_silent _).bind fun _ => silent_pure _

variable {c : Surroundings} {bound : Nat} {r r' r₀ r₁ : Reader} {p : DirectiveParts} {ts : List Token}
  {trees : List Tree}

/-- The parts of a directive are derived from where it starts, and their blocks are closed. -/
structure DirectiveParts.Stands (r₀ : Reader) (p : DirectiveParts) (r : Reader) : Prop where
  derives : Derives false r₀ p.trees r
  closed : ClosesBlocks p.trees
  begins : BeginsWith .metaCode p.trees

/-- The parts of a directive that ends with the source inside of its block, which has been reported. -/
structure DirectiveParts.Ends (r₀ : Reader) (p : DirectiveParts) (r : Reader) : Prop where
  broken : p.complete = false
  endsOpen : EndsOpen p.trees
  begins : BeginsWith .metaCode p.trees
  derives : ∃ r₁, Derives false r₀ p.trees r₁ ∧ r₁.AtEnd ∧ (r₁.note [r₁.unended "code"]).Passes [] r

namespace DirectiveParts

theorem Stands.add (h : p.Stands r₀ r) (htrees : Derives false r trees r') (hfree : BlockFree trees) :
    (p.add trees).Stands r₀ r' :=
  ⟨h.derives.append htrees, h.closed.append hfree.closesBlocks, h.begins.append trees⟩

theorem Stands.pass (h : p.Stands r₀ r) (h' : r.Passes [] r') : p.Stands r₀ r' :=
  ⟨h.derives.pass h', h.closed, h.begins⟩

theorem Stands.noting (h : p.Stands r₀ r) {cause : Cause} {span : Span} (aside : cause.isAside = true) :
    p.Stands r₀ (r.note [⟨cause, span⟩]) := ⟨h.derives.noting aside, h.closed, h.begins⟩

/-- Noting that something is missing changes no trees. -/
theorem Stands.broken (h : p.Stands r₀ r) : p.broken.Stands r₀ r := ⟨h.derives, h.closed, h.begins⟩

/-- Neither does a value. -/
theorem Stands.addValue (h : p.Stands r₀ r) (v : DirectiveValue) : (p.addValue v).Stands r₀ r :=
  ⟨h.derives, h.closed, h.begins⟩

end DirectiveParts

theorem blockFree_single {t : Tree} {kind : NodeKind} (h : t.kind? = some kind) (hkind : kind ≠ .codeBlock) :
    BlockFree [t] := by
  intro u hu heq
  rw [List.mem_singleton.mp hu] at heq
  exact hkind (Option.some.inj (h.symm.trans heq))

/-- A directive's piece of code over tokens that have been read. -/
theorem codePiece_stands (h : p.Stands r₀ r₁) (hts : Gathers r₁ ts r) :
    Gives (codePiece ts) r fun trees r' => (p.add trees).Stands r₀ r' := by
  unfold codePiece
  split
  · next hnone =>
      rw [List.isEmpty_iff.mp hnone] at hts
      exact h.add hts fun t ht => absurd ht List.not_mem_nil
  · exact h.add (hts.node rfl) (blockFree_single rfl (by decide))

theorem valueTokens_passes (kind : ValueKind) (r : Reader) :
    Gives (valueTokens kind) r fun ts r' => r.Passes ts r' :=
  Reads.passes (valueTokens_reads kind r) (valueTokens_silent kind r)

theorem values_stands (d : Directive) (kinds : List ValueKind) (h : p.Stands r₀ r) :
    Gives (values d kinds p) r fun p' r' => p'.Stands r₀ r' := by
  induction kinds generalizing p r with
  | nil => exact h
  | cons kind kinds ih =>
      rw [values]
      simp only [gives_bind, gives_here]
      refine (takeTrivia_passes false r).mono fun blank r₁ hblank => ?_
      refine (valueTokens_passes kind r₁).mono fun ts r₂ hts => ?_
      have hblank : Gathers r blank r₁ := .read hblank
      split
      · next hnone =>
          rw [Bool.and_eq_true, List.isEmpty_iff] at hnone
          rw [hnone.1] at hts
          simp only [gives_bind, gives_here, gives_report, gives_pure]
          have aside : (Cause.directiveWithoutValue d.name).isAside = true := rfl
          rw [← List.append_nil blank]
          exact (codePiece_stands h ((hblank.add hts).note aside)).mono fun trees r₃ hp => hp.broken
      · simp only [gives_bind]
        have hp : (if ts.isEmpty = true then p else p.addValue (valueOf kind ts
            (Span.empty r₁.tokenizer.path r₁.tokenizer.place))).Stands r₀ r := by
          split
          · exact h
          · exact h.addValue _
        exact (codePiece_stands hp (hblank.add hts)).mono fun trees r₃ hp => ih hp

theorem staticWord_passes (isStatic : Bool) (r : Reader) :
    Gives (staticWord isStatic) r fun ts r' => r.Passes ts r' :=
  Reads.passes (staticWord_reads isStatic r) (staticWord_silent isStatic r)

theorem typeName_passes (r : Reader) : Gives typeName r fun ts r' => r.Passes ts r' :=
  Reads.passes (typeName_reads r) (typeName_silent r)

theorem addImport_stands (h : p.Stands r₀ r₁) (hts : Gathers r₁ ts r) (isStatic : Bool) (place : Span)
    (given target : List Token) (shortName : Option Text) :
    Gives (addImport p isStatic place given ts target shortName) r fun p' r' => p'.Stands r₀ r' := by
  unfold addImport
  rw [gives_bind, gives_here, gives_pure]
  exact (h.addValue _).add (Derives.simple hts rfl) (blockFree_single rfl (by decide))

theorem importValue_stands (h : p.Stands r₀ r) :
    Gives (importValue p) r fun p' r' => p'.Stands r₀ r' := by
  have aside : (Cause.directiveWithoutValue Directive.importNamespace.name).isAside = true := rfl
  unfold importValue
  simp only [gives_bind, gives_here, gives_peek?]
  refine (takeTrivia_passes false r).mono fun blank r₁ hblank => ?_
  refine (staticWord_passes _ r₁).mono fun lead r₂ hlead => ?_
  refine (typeName_passes r₂).mono fun first r₃ hfirst => ?_
  have hblank : Gathers r blank r₁ := .read hblank
  have hlead := hblank.add hlead
  split
  · next hnone =>
      rw [List.isEmpty_iff.mp hnone] at hfirst
      simp only [gives_bind, gives_here, gives_report, gives_pure]
      refine codePiece_stands h (Gathers.note ?_ aside)
      exact Derives.pass hlead hfirst
  · have hfirst := hlead.add hfirst
    simp only [gives_bind, gives_placeBehind, gives_kindAt?]
    split
    · simp only [gives_bind]
      refine (take_passes _ r₃).mono fun sign r₄ hsign => ?_
      refine (takeTrivia_passes false r₄).mono fun gap r₅ hgap => ?_
      refine (typeName_passes r₅).mono fun target r₆ htarget => ?_
      have hgap := (hfirst.add hsign).add hgap
      split
      · next hnone =>
          rw [List.isEmpty_iff.mp hnone] at htarget
          simp only [gives_bind, gives_here, gives_report]
          exact addImport_stands h (Gathers.note (Derives.pass hgap htarget) aside) _ _ _ _ _
      · refine addImport_stands h ?_ _ _ _ _ _
        simpa only [List.append_assoc] using hgap.add htarget
    · exact addImport_stands h hfirst _ _ _ _ _

theorem tagHelperLine_stands (d : Directive) (h : p.Stands r₀ r) :
    Gives (tagHelperLine d p) r fun p' r' => p'.Stands r₀ r' := by
  unfold tagHelperLine
  simp only [gives_bind, gives_here]
  refine (takeTrivia_passes false r).mono fun blank r₁ hblank => ?_
  refine (valueTokens_passes .text r₁).mono fun ts r₂ hts => ?_
  have hblank : Gathers r blank r₁ := .read hblank
  have hboth := hblank.add hts
  have hadd {p' : DirectiveParts} {r₃ : Reader} (hp : p'.Stands r₀ r) (hcode : Gathers r (blank ++ ts) r₃)
      {place : Span} {label : Option Label} :
      (p'.add [Tree.spanning .statementCode ((blank ++ ts).map token) place label]).Stands r₀ r₃ :=
    hp.add (Derives.simple hcode rfl) (blockFree_single rfl (by decide))
  split
  · simp only [gives_bind, gives_report, gives_pure]
    exact hadd h (hboth.note rfl)
  · rw [gives_pure]
    exact hadd (h.addValue _) hboth

/-! ## Blocks -/

theorem openBlock_stands (d : Directive) (h : p.Stands r₀ r) :
    Gives (openBlock d p) r fun p' r' => p'.Stands r₀ r' := by
  unfold openBlock
  simp only [gives_bind, gives_isAt]
  refine (takeTrivia_passes true r).mono fun blank r₁ hblank => ?_
  have hblank : Gathers r blank r₁ := .read hblank
  split
  · simp only [gives_bind, gives_nodeOver, gives_pure]
    refine (bump_passes r₁).mono fun brace r₂ hbrace => ?_
    exact h.add ((hblank.add hbrace).node rfl) (blockFree_single rfl (by decide))
  · simp only [gives_bind, gives_here, gives_report, gives_pure]
    have aside : (Cause.directiveWithoutValue d.name).isAside = true := rfl
    exact (codePiece_stands h (hblank.note aside)).mono fun _ _ hp => hp.broken

/-- The block of members of a directive is closed, or the directive ends with the source. -/
theorem memberBlock_stands (hc : c.Faithful) (hsound : c.Sound bound) (d : Directive) (h : p.Stands r₀ r)
    (hr : r.left < bound) :
    Gives (memberBlock c d p) r fun p' r' => p'.Stands r₀ r' ∨ p'.Ends r₀ r' := by
  unfold memberBlock
  rw [gives_bind]
  refine ((openBlock_stands d h).and (openBlock_enlarges d p r)).mono ?_
  rintro p₁ r₁ ⟨hp₁, henlarges⟩
  have hr₁ := henlarges.left
  split
  · exact Or.inl hp₁
  · simp only [gives_bind, gives_pure]
    refine (codeBlock_closed hc hsound (r := r₁) (by omega)).mono fun block r₂ hclose => ?_
    refine hclose.mono ?_
    rintro trees r₃ ⟨hkind, ⟨closed, rfl, hclosed, hbalanced, hblock⟩ | ⟨rfl, r₄, hblock, hatEnd, hpasses⟩⟩
    · refine Or.inl ⟨hp₁.derives.append hblock, ?_, hp₁.begins.append _⟩
      exact hp₁.closed.append (closesBlocks_block hbalanced hclosed)
    · refine Or.inr ⟨rfl, ⟨p₁.trees, block, rfl, hkind, hp₁.closed⟩, hp₁.begins.append _, r₄, ?_⟩
      exact ⟨hp₁.derives.append hblock, hatEnd, hpasses⟩

theorem isAside_of_markupBlock {d : Directive} {kinds : List ValueKind} (h : d.shape = .markupBlock kinds)
    (opener closer : Char) : (Cause.missingClose d.name opener closer).isAside = true := by
  cases d with
  | defineSection => rfl
  | _ => exact nomatch h

theorem markupBlock_stands (hc : c.Faithful) {d : Directive} {kinds : List ValueKind}
    (hd : d.shape = .markupBlock kinds) (h : p.Stands r₀ r) :
    Gives (markupBlock c d p) r fun p' r' => p'.Stands r₀ r' := by
  unfold markupBlock
  rw [gives_bind]
  refine (openBlock_stands d h).mono fun p₁ r₁ hp₁ => ?_
  split
  · exact hp₁
  · simp only [gives_bind, gives_here]
    refine (switchTo_passes .html r₁).mono fun _ r₂ hswitch => ?_
    refine (hc .section r₂).mono fun trees r₃ htrees => ?_
    refine (closeBraceNode_derives r₃).mono ?_
    rintro closed r₄ ⟨hclosed, hfree⟩
    have hblock {place : Span} :
        (p₁.add (Tree.spanning .markupBlock trees place :: closed)).Stands r₀ r₄ := by
      refine (hp₁.pass hswitch).add ((Derives.simple htrees rfl).append hclosed) ?_
      exact List.forall_mem_cons.mpr ⟨fun heq => absurd (Option.some.inj heq) (by decide), hfree⟩
    split
    · simp only [gives_bind, gives_here, gives_report, gives_pure]
      exact (hblock.noting (isAside_of_markupBlock hd _ _)).broken
    · exact hblock

/-! ## The whole directive -/

theorem lineEnd_stands (semicolon : Bool) (h : p.Stands r₀ r) :
    Gives (lineEnd semicolon p) r fun p' r' => p'.Stands r₀ r' := by
  unfold lineEnd
  rw [gives_bind]
  refine (switchTo_passes .csharp r).mono fun _ r₁ hswitch => ?_
  have h := h.pass hswitch
  rw [gives_bind]
  refine (lineEndCount?_looks semicolon).gives fun count => ?_
  split
  · rw [gives_bind]
    refine (take_passes _ r₁).mono fun ts r₂ hts => ?_
    split
    · next hnone =>
        rw [List.isEmpty_iff.mp hnone] at hts
        exact h.pass hts
    · exact h.add (Gathers.node (.read hts) rfl) (blockFree_single rfl (by decide))
  · exact h

theorem directiveParts_stands (hc : c.Faithful) (hsound : c.Sound bound) (d : Directive) (h : p.Stands r₀ r)
    (hr : r.left < bound) :
    Gives (directiveParts c d p) r fun p' r' => p'.Stands r₀ r' ∨ p'.Ends r₀ r' := by
  -- the line ends behind what is complete
  have hline {g : Grammar DirectiveParts} {semicolon : Bool} {r' : Reader}
      (hg : Gives g r' fun p' r'' => p'.Stands r₀ r'' ∨ p'.Ends r₀ r'') :
      Gives (do
        let p' ← g
        if p'.complete then lineEnd semicolon p' else return p') r'
        fun p' r'' => p'.Stands r₀ r'' ∨ p'.Ends r₀ r'' := by
    rw [gives_bind]
    refine hg.mono fun p' r'' hp' => ?_
    rcases hp' with hstands | hends
    · split
      · exact (lineEnd_stands semicolon hstands).mono fun _ _ h => Or.inl h
      · exact Or.inl hstands
    · rw [hends.broken, if_neg Bool.false_ne_true]
      exact Or.inr hends
  unfold directiveParts
  split
  · rw [gives_bind]
    refine (importValue_stands h).mono fun p₁ r₁ hp₁ => ?_
    exact (lineEnd_stands true hp₁).mono fun _ _ h => Or.inl h
  · split
    · next kinds _ => exact hline ((values_stands d kinds h).mono fun _ _ h => Or.inl h)
    · rw [gives_bind]
      refine (tagHelperLine_stands d h).mono fun p₁ r₁ hp₁ => ?_
      exact (lineEnd_stands false hp₁).mono fun _ _ h => Or.inl h
    · exact hline (memberBlock_stands hc hsound d h hr)
    · next kinds hshape =>
        rw [gives_bind]
        refine (values_stands d kinds h).mono fun p₁ r₁ hp₁ => ?_
        split
        · exact Or.inl hp₁
        · exact hline ((markupBlock_stands hc hshape hp₁).mono fun _ _ h => Or.inl h)

theorem directive_derives (hc : c.Faithful) (hsound : c.Sound bound) {transition : Tree}
    (h : Derives false r₀ [transition] r) (hnext : HasNext r) (d : Directive) (hr : r.left < bound) :
    Gives (directive c transition d) r fun t r' => Derives false r₀ [t] r' := by
  unfold directive
  simp only [gives_bind, gives_nodeOver, gives_pure]
  refine ((bump_passes r).and (bump_begins hnext .metaCode)).mono ?_
  rintro name r₁ ⟨hname, hbegins⟩
  have hr₁ := hname.left
  have hstart {place : Span} : DirectiveParts.Stands r { trees := [overTokens .metaCode name place] } r₁ :=
    ⟨Gathers.node (.read hname) rfl, (blockFree_single rfl (by decide)).closesBlocks, hbegins place⟩
  refine (directiveParts_stands hc hsound d hstart (by omega)).mono ?_
  rintro p r₂ (hstands | hends)
  · exact (h.append (hstands.derives.closedBody hstands.closed rfl)).simple rfl
  · obtain ⟨r₃, hderives, hatEnd, hpasses⟩ := hends.derives
    exact (h.append
      (hderives.openBlock (Or.inl ⟨rfl, hends.endsOpen⟩) (fun _ => hends.begins) hatEnd hpasses)).simple rfl

/-! ## Transitions -/

theorem strayTransition_derives {transition : Tree} (h : Derives false r₀ [transition] r) (start : Span) :
    Gives (strayTransition start transition) r fun t r' => Derives false r₀ [t] r' := by
  unfold strayTransition
  simp only [gives_bind, gives_peek?, gives_report, gives_nodeOver, gives_pure]
  have aside : (Cause.unexpectedAfterTransition (strayName r.tokenizer.peek?)).isAside = true := rfl
  exact ((h.noting aside).append (Gathers.node (.refl _) rfl)).simple rfl

/-- The transition that is next stands in front of what is read behind it. -/
theorem transitionMark_derives (hkind : r.tokenizer.peek?.map (·.kind) = some .transition) :
    Gives transitionMark r fun mark r' =>
      Derives false r [mark.2] r' ∧ IsTransition mark.2 ∧ mark.2.Parsed ∧ r'.left < r.left := by
  unfold transitionMark
  simp only [gives_bind, gives_here, gives_nodeOver, gives_pure]
  refine ((bump_kind hkind).and (bump_content hkind (by decide))).mono ?_
  rintro ts r₁ ⟨⟨mark, rfl, hmark, hpasses, hless⟩, hcontent⟩
  refine (switchTo_passes .csharp r₁).mono fun _ r₂ hswitch => ⟨?_, ?_, .leaf rfl _ _, ?_⟩
  · exact Derives.pass (Gathers.node (.read hpasses) rfl) hswitch
  · exact ⟨rfl, mark, rfl, hmark, hcontent mark (List.mem_singleton_self mark)⟩
  · exact Nat.lt_of_le_of_lt hswitch.left hless

theorem CodeRule.derives (hc : c.Faithful) (hsound : c.Sound bound) {start : Span} {r₀ : Reader}
    (hlead : Derives false r₀ [transition] r) (htransition : IsTransition transition) (hr : r.left < bound)
    {g : Grammar Tree} (h : CodeRule c start transition r g) : Gives g r fun t r' => Derives false r₀ [t] r' := by
  cases h with
  | statements hnext => exact statementBlock_derives hc hsound hlead hnext hr
  | explicit => exact explicitExpression_derives hlead htransition
  | directive d hnext => exact directive_derives hc hsound hlead hnext d hr
  | implicit => exact implicitExpression_derives hlead
  | stray => exact strayTransition_derives hlead start

/-- The transition that is next, with the code that it leads to. -/
theorem codeTransition_derives (hc : c.Faithful) (hsound : c.Sound r.left)
    (hkind : r.tokenizer.peek?.map (·.kind) = some .transition) (inside : Bool) :
    Gives (codeTransition c) r fun t r' => Derives inside r [t] r' := by
  refine gives_codeTransition ((transitionMark_derives hkind).mono ?_)
  rintro ⟨start, transition⟩ r₁ ⟨hlead, htransition, hparsed, hr₁⟩
  refine ⟨fun g hrule => ?_, keywordStatement_derives hc hsound hlead hparsed hr₁ inside⟩
  exact (hrule.derives hc hsound hlead htransition hr₁).mono fun _ _ ht => ht.simple rfl

end RazorLang.Grammar
