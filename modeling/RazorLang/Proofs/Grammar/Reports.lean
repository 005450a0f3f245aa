import RazorLang.Proofs.Grammar.Markup
import RazorLang.Proofs.Grammar.Sites

/-!
# What the rules of code report

Every rule makes trees of the source and reports spans of the source (`Source.Holds`), rule by rule: what a
rule reports is the place of the reader, the transition that led to the rule, or what has been read.
-/

namespace RazorLang.Grammar

open Source

variable {d : Source} {ts : List Token} {transition : Tree} {start : Span}

/-! ## Expressions -/

/-- Something in brackets behind some tokens; what comes of it depends on whether it is closed. -/
theorem takeBalanced_bind_keeps {α : Type} {P : α → Prop} {f : List Token × Bool → Grammar α}
    {opener closer : TokenKind}
    (hf : ∀ taken closed, d.HoldsTokens taken → Keeps d (f (taken, closed)) P) :
    Keeps d (takeBalanced opener closer >>= f) P :=
  (takeBalanced_keeps opener closer).bind fun state hstate => hf state.1 state.2 hstate

theorem implicitTurn_keeps (hstart : d.Holds start) (hts : d.HoldsTokens ts) :
    Keeps d (implicitTurn start ts) fun t => d.HoldsTokens t.value := by
  have htake (n : Nat) : Keeps d (do return .again (ts ++ (← take n)))
      fun t : Turn (List Token) => d.HoldsTokens t.value :=
    (take_keeps n).bind fun _ htaken => keeps_pure (hts.append htaken)
  unfold implicitTurn
  refine keeps_look (fun _ => rfl) fun kind => ?_
  split
  · refine takeBalanced_bind_keeps fun taken closed htaken => ?_
    refine keeps_ite (fun _ => keeps_pure (hts.append htaken)) fun _ => ?_
    exact (report_keeps _ hstart).bind fun _ _ => keeps_pure (hts.append htaken)
  · refine takeBalanced_bind_keeps fun taken closed htaken => ?_
    refine keeps_ite (fun _ => keeps_pure (hts.append htaken)) fun _ => ?_
    exact (report_keeps _ hstart).bind fun _ _ => keeps_pure (hts.append htaken)
  · refine keeps_look (memberAt_looks 1) fun _ => ?_
    exact keeps_ite (fun _ => htake 2) fun _ => keeps_pure hts
  · refine keeps_look (fun _ => rfl) fun kind => ?_
    split
    · refine keeps_look (memberAt_looks 2) fun _ => ?_
      exact keeps_ite (fun _ => htake 3) fun _ => keeps_pure hts
    · refine bump_keeps.bind fun mark hmark => takeBalanced_bind_keeps fun taken closed htaken => ?_
      have hmore := (hts.append hmark).append htaken
      exact keeps_ite (fun _ => keeps_pure hmore) fun _ => keeps_pure hmore
    · exact keeps_pure hts
  · refine keeps_look (fun _ => rfl) fun kind => ?_
    split
    · exact bump_keeps.bind fun _ htaken => keeps_pure (hts.append htaken)
    · exact bump_keeps.bind fun _ htaken => keeps_pure (hts.append htaken)
    · exact keeps_pure hts
  · exact keeps_pure hts

theorem awaitWord_keeps : Keeps d awaitWord d.HoldsTokens := by
  refine keeps_look awaitAhead_looks fun _ => ?_
  exact keeps_ite (fun _ => take_keeps 2) fun _ => keeps_pure holdsTokens_nil

theorem implicitExpression_keeps (h : d.HoldsTree transition) :
    Keeps d (implicitExpression transition) d.HoldsTree := by
  refine awaitWord_keeps.bind fun lead hlead => bump_keeps.bind fun first hfirst => ?_
  refine (keeps_loop (fun _ => implicitTurn_keeps h.span) (hlead.append hfirst)).bind fun ts hts => ?_
  refine (nodeOver_keeps _ hts).bind fun code hcode => keeps_pure ?_
  exact (h.cons hcode.single).spanning _ h.span

theorem explicitTurn_keeps {state : List Token × Nat × List Token}
    (h : d.HoldsTokens state.1 ∧ d.HoldsTokens state.2.2) :
    Keeps d (explicitTurn state) fun t => d.HoldsTokens t.value.1 ∧ d.HoldsTokens t.value.2.2 := by
  obtain ⟨ts, depth, closing⟩ := state
  obtain ⟨hts, -⟩ := h
  have hagain (depth : Nat) : Keeps d (do return .again (ts ++ (← bump), depth, []))
      fun t : Turn (List Token × Nat × List Token) =>
        d.HoldsTokens t.value.1 ∧ d.HoldsTokens t.value.2.2 :=
    bump_keeps.bind fun _ htaken => keeps_pure ⟨HoldsTokens.append hts htaken, holdsTokens_nil⟩
  unfold explicitTurn
  refine keeps_look (fun _ => rfl) fun kind => ?_
  split
  · exact keeps_pure ⟨hts, holdsTokens_nil⟩
  · refine keeps_ite (fun _ => ?_) fun _ => hagain _
    exact bump_keeps.bind fun _ htaken => keeps_pure ⟨hts, htaken⟩
  · exact hagain _
  · exact hagain _

theorem explicitExpression_keeps (h : d.HoldsTree transition) :
    Keeps d (explicitExpression transition) d.HoldsTree := by
  refine bump_keeps.bind fun first hfirst => (nodeOver_keeps _ hfirst).bind fun opened hopened => ?_
  refine (keeps_loop (fun _ => explicitTurn_keeps) ⟨holdsTokens_nil, holdsTokens_nil⟩).bind ?_
  rintro ⟨ts, depth, closing⟩ ⟨hts, hclosing⟩
  refine (nodeOver_keeps _ hts).bind fun code hcode => ?_
  refine keeps_ite (fun _ => ?_) fun _ => ?_
  · refine (report_keeps _ h.span).bind fun _ _ => keeps_pure ?_
    exact (h.cons (hopened.cons hcode.single)).spanning _ h.span
  · refine (nodeOver_keeps _ hclosing).bind fun closed hclosed => keeps_pure ?_
    exact (h.cons (hopened.cons (hcode.cons hclosed.single))).spanning _ h.span

end RazorLang.Grammar

namespace RazorLang

open Source

variable {d : Source}

/-! ## Statements -/

/-- The surroundings of code read markup of the source. -/
def Surroundings.Keeps (d : Source) (c : Surroundings) : Prop :=
  ∀ scope, Grammar.Keeps d (c.markup scope) d.HoldsTrees

namespace CodeRun

variable {run : CodeRun} {ts : List Token} {t : Tree}

/-- A run of code of the source. -/
structure IsOf (d : Source) (run : CodeRun) : Prop where
  trees : d.HoldsTrees run.trees
  pending : d.HoldsTokens run.pending

theorem isOf_start : IsOf d {} := ⟨holdsTrees_nil, holdsTokens_nil⟩

theorem IsOf.add (h : run.IsOf d) (hts : d.HoldsTokens ts) : (run.add ts).IsOf d :=
  ⟨h.trees, h.pending.append hts⟩

theorem IsOf.flush (h : run.IsOf d) : run.flush.IsOf d := by
  rw [CodeRun.flush]
  split
  · exact h
  · next hnonempty =>
      refine ⟨h.trees.append (HoldsTree.single ?_), holdsTokens_nil⟩
      refine HoldsTrees.spanning_cons _ h.pending.toTrees ?_
      intro hnil
      exact hnonempty (List.isEmpty_iff.mpr (List.map_eq_nil_iff.mp hnil))

theorem IsOf.push (h : run.IsOf d) (ht : d.HoldsTree t) : (run.push t).IsOf d :=
  ⟨h.flush.trees.append ht.single, h.flush.pending⟩

theorem IsOf.finish (h : run.IsOf d) : d.HoldsTrees run.finish := h.flush.trees

end CodeRun

namespace Grammar

variable {c : Surroundings} {run : CodeRun} {ts : List Token} {transition : Tree}

theorem takeInto_keeps (h : run.IsOf d) : Keeps d (takeInto run) (CodeRun.IsOf d) :=
  bump_keeps.bind fun _ htaken => keeps_pure (h.add htaken)

theorem transitionNode_keeps (h : d.HoldsTokens ts) : Keeps d (transitionNode ts) d.HoldsTrees := by
  refine keeps_ite (fun _ => keeps_pure holdsTrees_nil) fun _ => ?_
  exact (nodeOver_keeps _ h).bind fun _ hnode => keeps_pure hnode.single

theorem elementInCode_keeps (hc : c.Keeps d) (h : d.HoldsTokens ts) :
    Keeps d (elementInCode c ts) d.HoldsTree := by
  refine here_keeps.bind fun place hplace => (transitionNode_keeps h).bind fun lead hlead => ?_
  refine (switchTo_keeps _).bind fun _ _ => (hc .element).bind fun inner hinner => keeps_pure ?_
  exact (hlead.append hinner).spanning _ hplace

theorem lineInCode_keeps (hc : c.Keeps d) : Keeps d (lineInCode c) d.HoldsTree := by
  refine here_keeps.bind fun place hplace => (take_keeps 2).bind fun mark hmark => ?_
  refine (nodeOver_keeps _ hmark).bind fun lead hlead => (switchTo_keeps _).bind fun _ _ => ?_
  exact (hc .line).bind fun inner hinner => keeps_pure ((hlead.cons hinner).spanning _ hplace)

theorem BlockNode.keeps (hc : c.Keeps d) {r : Reader} {inner : Grammar Tree} (h : BlockNode c r inner) :
    Keeps d inner d.HoldsTree := by
  cases h with
  | comment => exact razorComment_keeps
  | element => exact elementInCode_keeps hc holdsTokens_nil
  | line => exact lineInCode_keeps hc
  | marked => exact bump_keeps.bind fun _ hmark => elementInCode_keeps hc hmark

theorem blockTurn_keeps (hc : c.Keeps d) {b : BlockState} (h : b.run.IsOf d) :
    Keeps d (blockTurn c b) fun t => t.value.run.IsOf d := by
  intro r hr
  refine gives_blockTurn ((switchTo_keeps .csharp r hr).mono ?_)
  rintro _ r₁ ⟨-, hr₁⟩ g hmove
  cases hmove with
  | stop => exact keeps_pure h r₁ hr₁
  | closes | opens | token => exact (takeInto_keeps h).bind (fun _ hrun => keeps_pure hrun) r₁ hr₁
  | node _ hinner => exact (hinner.keeps hc).bind (fun _ ht => keeps_pure (h.push ht)) r₁ hr₁

theorem blockStatements_keeps (hc : c.Keeps d) (h : run.IsOf d) :
    Keeps d (blockStatements c run) (CodeRun.IsOf d) := by
  refine Keeps.bind (P := fun b : BlockState => b.run.IsOf d)
    (keeps_loop (fun _ => blockTurn_keeps hc) h) fun b hb => ?_
  refine keeps_look (fun _ => rfl) fun next => keeps_ite (fun _ => ?_) fun _ => keeps_pure hb
  exact report_here_keeps _ fun _ => keeps_pure hb

theorem closeBraceNode_keeps : Keeps d closeBraceNode d.HoldsTrees := by
  refine (switchTo_keeps _).bind fun _ _ => keeps_look (fun _ => rfl) fun _ => ?_
  refine keeps_ite (fun _ => ?_) fun _ => keeps_pure holdsTrees_nil
  refine bump_keeps.bind fun _ htaken => ?_
  exact (nodeOver_keeps _ htaken).bind fun _ hnode => keeps_pure hnode.single

theorem codeBlockNode_keeps (hc : c.Keeps d) : Keeps d (codeBlockNode c) d.HoldsTree := by
  refine (blockStatements_keeps hc CodeRun.isOf_start).bind fun run hrun => ?_
  exact here_keeps.bind fun _ hplace => keeps_pure (hrun.finish.spanning _ hplace)

theorem statementBlock_keeps (hc : c.Keeps d) (h : d.HoldsTree transition) :
    Keeps d (statementBlock c transition) d.HoldsTree := by
  refine bump_keeps.bind fun brace hbrace => (nodeOver_keeps _ hbrace).bind fun opened hopened => ?_
  refine (codeBlockNode_keeps hc).bind fun code hcode => ?_
  refine closeBraceNode_keeps.bind fun closed hclosed => keeps_pure ?_
  have hbody := ((hopened.cons hcode.single).append hclosed).spanning .statementBody h.span
  exact (h.cons hbody.single).spanning _ h.span

/-! ## Statements that a keyword starts -/

theorem takeTriviaInto_keeps (h : run.IsOf d) (acrossLines : Bool) :
    Keeps d (takeTriviaInto run acrossLines) (CodeRun.IsOf d) :=
  (takeTrivia_keeps acrossLines).bind fun _ htaken => keeps_pure (h.add htaken)

theorem condition_keeps (h : run.IsOf d) : Keeps d (condition run) (CodeRun.IsOf d) := by
  refine (takeTriviaInto_keeps h true).bind fun run hrun => keeps_look (fun _ => rfl) fun _ => ?_
  refine keeps_ite (fun _ => ?_) fun _ => keeps_pure hrun
  refine takeBalanced_bind_keeps fun taken closed htaken => ?_
  refine keeps_ite (fun _ => ?_) fun _ => keeps_pure (hrun.add htaken)
  exact report_here_keeps _ fun _ => keeps_pure (hrun.add htaken)

theorem plainBodyTurn_keeps {state : CodeRun × Nat} (h : state.1.IsOf d) :
    Keeps d (plainBodyTurn state) fun t => t.value.1.IsOf d := by
  unfold plainBodyTurn
  refine keeps_look (fun _ => rfl) fun kind => ?_
  cases kind with
  | none => exact keeps_pure h
  | some kind =>
      refine (takeInto_keeps h).bind fun run hrun => ?_
      exact keeps_ite (fun _ => keeps_pure hrun) fun _ => keeps_pure hrun

theorem body_keeps (hc : c.Keeps d) (h : run.IsOf d) : Keeps d (body c run) (CodeRun.IsOf d) := by
  refine (switchTo_keeps _).bind fun _ _ => (takeTriviaInto_keeps h true).bind fun run hrun => ?_
  refine keeps_look (fun _ => rfl) fun _ => keeps_ite (fun _ => ?_) fun _ => ?_
  · refine (takeInto_keeps hrun).bind fun run hrun => (blockStatements_keeps hc hrun).bind fun run hrun => ?_
    refine (switchTo_keeps _).bind fun _ _ => keeps_look (fun _ => rfl) fun _ => ?_
    exact keeps_ite (fun _ => takeInto_keeps hrun) fun _ => keeps_pure hrun
  · refine Keeps.bind (P := fun state : CodeRun × Nat => state.1.IsOf d)
      (keeps_loop (fun _ => plainBodyTurn_keeps) hrun) fun state hstate => keeps_pure hstate

theorem continuation_keeps (h : run.IsOf d) (words : List Text) :
    Keeps d (continuation run words) fun found => found.1.IsOf d := by
  refine (switchTo_keeps _).bind fun _ _ => keeps_look (fun _ => rfl) fun n => ?_
  refine keeps_look (fun _ => rfl) fun next => ?_
  cases next with
  | none => exact keeps_pure h
  | some t =>
      refine keeps_ite (fun _ => ?_) fun _ => keeps_pure h
      exact (take_keeps _).bind fun _ htaken => keeps_pure (h.add htaken)

theorem handlerTurn_keeps (hc : c.Keeps d) (h : run.IsOf d) :
    Keeps d (handlerTurn c run) fun t => t.value.IsOf d := by
  refine (continuation_keeps h _).bind ?_
  rintro ⟨run, _ | word⟩ hrun
  · exact keeps_pure hrun
  · refine keeps_ite (fun _ => ?_) fun _ => ?_
    · exact (body_keeps hc hrun).bind fun _ hbody => keeps_pure hbody
    · refine (condition_keeps hrun).bind fun run hrun => ?_
      exact (body_keeps hc hrun).bind fun _ hbody => keeps_pure hbody

theorem alternativeTurn_keeps (hc : c.Keeps d) (h : run.IsOf d) :
    Keeps d (alternativeTurn c run) fun t => t.value.IsOf d := by
  refine (continuation_keeps h _).bind ?_
  rintro ⟨run, _ | word⟩ hrun
  · exact keeps_pure hrun
  · refine keeps_look (fun _ => rfl) fun n => keeps_look (fun _ => rfl) fun next => ?_
    refine keeps_ite (fun _ => ?_) fun _ => ?_
    · refine (takeTriviaInto_keeps hrun true).bind fun run hrun => ?_
      refine (takeInto_keeps hrun).bind fun run hrun => (condition_keeps hrun).bind fun run hrun => ?_
      exact (body_keeps hc hrun).bind fun _ hbody => keeps_pure hbody
    · exact (body_keeps hc hrun).bind fun _ hbody => keeps_pure hbody

theorem keywordStatement_keeps (hc : c.Keeps d) (h : d.HoldsTree transition) :
    Keeps d (keywordStatement c transition) d.HoldsTree := by
  have hstart : CodeRun.IsOf d { trees := [transition] } := ⟨h.single, holdsTokens_nil⟩
  refine keeps_look (fun _ => rfl) fun next => (takeInto_keeps hstart).bind fun run hrun => ?_
  have hend {run : CodeRun} (hrun : run.IsOf d) :
      Keeps d (pure (Tree.spanning .codeBlock run.finish transition.span)) d.HoldsTree :=
    keeps_pure (hrun.finish.spanning _ h.span)
  refine keeps_ite (fun _ => ?_) fun _ => keeps_ite (fun _ => ?_) fun _ => ?_
  · refine (body_keeps hc hrun).bind fun run hrun => (continuation_keeps hrun _).bind ?_
    rintro ⟨run, _ | word⟩ hrun
    · exact hend hrun
    · refine (condition_keeps hrun).bind fun run hrun => ?_
      refine (takeTriviaInto_keeps hrun _).bind fun run hrun => keeps_look (fun _ => rfl) fun _ => ?_
      exact keeps_ite (fun _ => (takeInto_keeps hrun).bind fun _ => hend) fun _ => hend hrun
  · refine (body_keeps hc hrun).bind fun run hrun => ?_
    exact (keeps_loop (fun _ => handlerTurn_keeps hc) hrun).bind fun _ => hend
  · refine (condition_keeps hrun).bind fun run hrun => (body_keeps hc hrun).bind fun run hrun => ?_
    refine keeps_ite (fun _ => ?_) fun _ => hend hrun
    exact (keeps_loop (fun _ => alternativeTurn_keeps hc) hrun).bind fun _ => hend

/-! ## Values of directives -/

theorem bracketTurn_keeps (opener closer : TokenKind) (hts : d.HoldsTokens ts) :
    Keeps d (bracketTurn opener closer ts) fun t => d.HoldsTokens t.value := by
  refine takeBalanced_bind_keeps fun taken closed htaken => ?_
  exact keeps_ite (fun _ => keeps_pure (hts.append htaken)) fun _ => keeps_pure (hts.append htaken)

theorem typeTurn_keeps (hts : d.HoldsTokens ts) :
    Keeps d (typeTurn ts) fun t => d.HoldsTokens t.value := by
  have hmember : Keeps d (do
      if ← memberAt 1 then return .again (ts ++ (← take 2)) else return .done ts)
      fun t : Turn (List Token) => d.HoldsTokens t.value := by
    refine keeps_look (memberAt_looks 1) fun _ => keeps_ite (fun _ => ?_) fun _ => keeps_pure hts
    exact (take_keeps 2).bind fun _ htaken => keeps_pure (hts.append htaken)
  unfold typeTurn
  refine keeps_look (fun _ => rfl) fun kind => ?_
  split
  · exact hmember
  · exact hmember
  · exact bracketTurn_keeps _ _ hts
  · exact bracketTurn_keeps _ _ hts
  · exact bump_keeps.bind fun _ htaken => keeps_pure (hts.append htaken)
  · exact keeps_pure hts

theorem typeName_keeps : Keeps d typeName d.HoldsTokens := by
  have hloop {ts : List Token} (hts : d.HoldsTokens ts) : Keeps d (loop typeTurn ts) d.HoldsTokens :=
    keeps_loop (fun _ => typeTurn_keeps) hts
  unfold typeName
  refine keeps_look (fun _ => rfl) fun kind => ?_
  split
  · exact bump_keeps.bind fun _ => hloop
  · exact bump_keeps.bind fun _ => hloop
  · refine takeBalanced_bind_keeps fun taken closed htaken => ?_
    exact keeps_ite (fun _ => hloop htaken) fun _ => keeps_pure htaken
  · exact keeps_pure holdsTokens_nil

theorem dottedTurn_keeps (hts : d.HoldsTokens ts) :
    Keeps d (dottedTurn ts) fun t => d.HoldsTokens t.value := by
  refine keeps_look (fun _ => rfl) fun _ => keeps_look (memberAt_looks 1) fun _ => ?_
  refine keeps_ite (fun _ => ?_) fun _ => keeps_pure hts
  exact (take_keeps 2).bind fun _ htaken => keeps_pure (hts.append htaken)

theorem dottedName_keeps : Keeps d dottedName d.HoldsTokens := by
  refine keeps_look (memberAt_looks 0) fun _ => keeps_ite (fun _ => ?_) fun _ => keeps_pure holdsTokens_nil
  exact bump_keeps.bind fun _ hfirst => keeps_loop (fun _ => dottedTurn_keeps) hfirst

theorem single_keeps (kind : TokenKind) : Keeps d (single kind) d.HoldsTokens := by
  refine keeps_look (fun _ => rfl) fun _ => ?_
  exact keeps_ite (fun _ => bump_keeps) fun _ => keeps_pure holdsTokens_nil

theorem lineRest_keeps : Keeps d lineRest d.HoldsTokens := takeWhile_keeps _

theorem valueTokens_keeps (kind : ValueKind) : Keeps d (valueTokens kind) d.HoldsTokens := by
  cases kind with
  | type => exact typeName_keeps
  | member => exact single_keeps .identifier
  | namespaceName => exact dottedName_keeps
  | optionalString => exact single_keeps .string
  | text => exact lineRest_keeps

theorem codePiece_keeps (hts : d.HoldsTokens ts) : Keeps d (codePiece ts) d.HoldsTrees := by
  refine keeps_ite (fun _ => keeps_pure holdsTrees_nil) fun _ => ?_
  exact (nodeOver_keeps _ hts).bind fun _ hnode => keeps_pure hnode.single

/-! ## Parts of directives -/

variable {p : DirectiveParts}

theorem values_keeps (directive : Directive) (kinds : List ValueKind) (h : d.HoldsTrees p.trees) :
    Keeps d (values directive kinds p) fun p => d.HoldsTrees p.trees := by
  induction kinds generalizing p with
  | nil => exact keeps_pure h
  | cons kind kinds ih =>
      refine (takeTrivia_keeps false).bind fun blank hblank => here_keeps.bind fun place hplace => ?_
      refine (valueTokens_keeps kind).bind fun ts hts => keeps_ite (fun _ => ?_) fun _ => ?_
      · refine report_here_keeps _ fun _ => ?_
        exact (codePiece_keeps hblank).bind fun _ hcode => keeps_pure (h.append hcode)
      · refine (codePiece_keeps (hblank.append hts)).bind fun code hcode => ih ?_
        split
        · exact h.append hcode
        · exact h.append hcode

theorem staticWord_keeps (isStatic : Bool) : Keeps d (staticWord isStatic) d.HoldsTokens := by
  refine keeps_ite (fun _ => ?_) fun _ => keeps_pure holdsTokens_nil
  refine bump_keeps.bind fun _ hword => ?_
  exact (takeTrivia_keeps false).bind fun _ hblank => keeps_pure (hword.append hblank)

theorem addImport_keeps (h : d.HoldsTrees p.trees) {literal : List Token} (hts : d.HoldsTokens literal)
    (isStatic : Bool) (place : Span) (given target : List Token) (shortName : Option Text) :
    Keeps d (addImport p isStatic place given literal target shortName) fun p => d.HoldsTrees p.trees := by
  refine here_keeps.bind fun behind hbehind => keeps_pure (h.append (HoldsTree.single ?_))
  exact holdsTree_spanning _ hts.toTrees (fun _ => hbehind) (holdsLabel_some holdsAll_nil)

theorem importValue_keeps (h : d.HoldsTrees p.trees) :
    Keeps d (importValue p) fun p => d.HoldsTrees p.trees := by
  refine (takeTrivia_keeps false).bind fun blank hblank => here_keeps.bind fun place _ => ?_
  refine keeps_look (fun _ => rfl) fun next => (staticWord_keeps _).bind fun lead hlead => ?_
  refine typeName_keeps.bind fun first hfirst => keeps_ite (fun _ => ?_) fun _ => ?_
  · refine report_here_keeps _ fun _ => ?_
    exact (codePiece_keeps (hblank.append hlead)).bind fun _ hcode => keeps_pure (h.append hcode)
  · have hname := (hblank.append hlead).append hfirst
    refine keeps_look (fun _ => rfl) fun n => keeps_look (fun _ => rfl) fun next => ?_
    refine keeps_ite (fun _ => ?_) fun _ => addImport_keeps h hname _ _ _ _ _
    refine (take_keeps _).bind fun sign hsign => (takeTrivia_keeps false).bind fun gap hgap => ?_
    refine typeName_keeps.bind fun target htarget => keeps_ite (fun _ => ?_) fun _ => ?_
    · refine report_here_keeps _ fun _ => ?_
      exact addImport_keeps h ((hname.append hsign).append hgap) _ _ _ _ _
    · refine addImport_keeps h (hblank.append ?_) _ _ _ _ _
      exact (((hlead.append hfirst).append hsign).append hgap).append htarget

/-! ## Texts for tag helpers -/

/-- A text at the front of the rest of the line is a span of the source, from where the line was read on. -/
theorem lineRest_bind_keeps {α : Type} {P : α → Prop} {f : Span → List Token → Grammar α}
    (hf : ∀ place ts, d.HoldsTokens ts → (∀ text, text <+: contentOf ts → text.getLast? ≠ some '\r' →
      d.Holds { place with length := Text.size text }) → Keeps d (f place ts) P) :
    Keeps d (do let place ← here; let ts ← lineRest; f place ts) P := by
  intro r hr
  obtain ⟨hts, hr'⟩ := lineRest_keeps r hr
  refine hf _ _ hts ?_ _ hr'
  rintro text ⟨rest, hrest⟩ hlast
  have hcontent := (lineRest_reads r).run.content
  rw [← hrest, List.append_assoc] at hcontent
  exact hr.holds_ahead hcontent fun hparts => hlast hparts.1

/-- What is wrong with the text of a directive for tag helpers is wrong with the whole of it. -/
theorem tagHelperLabel_span (directive : Directive) (text : Text) (span : Span) :
    ∀ x ∈ Resolution.labelDiagnostics (tagHelperLabel directive text span), x.span = span := by
  have hlookup : ∀ x ∈ (lookupText text span).diagnostics, x.span = span := by
    intro x hx
    simp only [lookupText] at hx
    split at hx
    · rw [List.mem_singleton.mp hx]
    · exact absurd hx List.not_mem_nil
  intro x hx
  unfold tagHelperLabel at hx
  split at hx
  · exact hlookup x hx
  · exact hlookup x hx
  · obtain ⟨_, -, rfl⟩ := List.mem_map.mp hx
    rfl

theorem tagHelperLine_keeps (directive : Directive) (h : d.HoldsTrees p.trees) :
    Keeps d (tagHelperLine directive p) fun p => d.HoldsTrees p.trees := by
  refine (takeTrivia_keeps false).bind fun blank hblank => ?_
  refine lineRest_bind_keeps fun place ts hts hplace => here_keeps.bind fun behind hbehind => ?_
  -- The white space at the end of the line is not part of the text, so the text may end inside a token.
  generalize htext : Text.trimEnd (contentOf ts) = text
  have hspan : d.Holds (if text.isEmpty then behind else { place with length := Text.size text }) := by
    split
    · exact hbehind
    · rw [← htext]
      exact hplace _ (Text.trimEnd_prefix _) (Text.getLast?_trimEnd_ne _)
  have hcode (p' : DirectiveParts) (hp' : p'.trees = p.trees) :
      d.HoldsTrees (p'.add [Tree.spanning .statementCode ((blank ++ ts).map Tree.token) behind
        (some (tagHelperLabel directive text
          (if text.isEmpty then behind else { place with length := Text.size text })))]).trees := by
    refine HoldsTrees.append (hp' ▸ h) (HoldsTree.single ?_)
    refine holdsTree_spanning _ (hblank.append hts).toTrees (fun _ => hbehind) (holdsLabel_some ?_)
    intro x hx
    rw [tagHelperLabel_span _ _ _ x hx]
    exact hspan
  refine keeps_ite (fun hnone => ?_) fun hsome => ?_
  · refine (report_keeps _ hspan).bind fun _ _ => keeps_pure (hcode _ ?_)
    rw [if_pos hnone]
  · refine keeps_pure (hcode _ ?_)
    rw [if_neg hsome]
    rfl

/-! ## Blocks of directives -/

theorem openBlock_keeps (directive : Directive) (h : d.HoldsTrees p.trees) :
    Keeps d (openBlock directive p) fun p => d.HoldsTrees p.trees := by
  refine (takeTrivia_keeps true).bind fun blank hblank => keeps_look (fun _ => rfl) fun _ => ?_
  refine keeps_ite (fun _ => ?_) fun _ => ?_
  · refine bump_keeps.bind fun brace hbrace => ?_
    refine (nodeOver_keeps _ (hblank.append hbrace)).bind fun node hnode => ?_
    exact keeps_pure (h.append hnode.single)
  · refine report_here_keeps _ fun _ => ?_
    exact (codePiece_keeps hblank).bind fun _ hcode => keeps_pure (h.append hcode)

theorem memberBlock_keeps (hc : c.Keeps d) (directive : Directive) (h : d.HoldsTrees p.trees) :
    Keeps d (memberBlock c directive p) fun p => d.HoldsTrees p.trees := by
  refine (openBlock_keeps directive h).bind fun p hp => ?_
  refine keeps_ite (fun _ => keeps_pure hp) fun _ => ?_
  refine (codeBlockNode_keeps hc).bind fun code hcode => ?_
  refine closeBraceNode_keeps.bind fun closed hclosed => keeps_pure ?_
  have hmore : d.HoldsTrees (p.add (code :: closed)).trees := HoldsTrees.append hp (hcode.cons hclosed)
  split
  · exact hmore
  · exact hmore

theorem markupBlock_keeps (hc : c.Keeps d) (directive : Directive) (h : d.HoldsTrees p.trees) :
    Keeps d (markupBlock c directive p) fun p => d.HoldsTrees p.trees := by
  refine (openBlock_keeps directive h).bind fun p hp => ?_
  refine keeps_ite (fun _ => keeps_pure hp) fun _ => here_keeps.bind fun place hplace => ?_
  refine (switchTo_keeps _).bind fun _ _ => (hc .section).bind fun inner hinner => ?_
  refine closeBraceNode_keeps.bind fun closed hclosed => ?_
  have hmore : d.HoldsTrees (p.add (Tree.spanning .markupBlock inner place :: closed)).trees :=
    HoldsTrees.append hp ((hinner.spanning _ hplace).cons hclosed)
  refine keeps_ite (fun _ => ?_) fun _ => keeps_pure hmore
  exact report_here_keeps _ fun _ => keeps_pure hmore

/-! ## Whole directives -/

theorem lineEnd_keeps (semicolon : Bool) (h : d.HoldsTrees p.trees) :
    Keeps d (lineEnd semicolon p) fun p => d.HoldsTrees p.trees := by
  refine (switchTo_keeps _).bind fun _ _ => keeps_look (lineEndCount?_looks semicolon) fun count => ?_
  cases count with
  | none => exact keeps_pure h
  | some count =>
      refine (take_keeps count).bind fun ts hts => keeps_ite (fun _ => keeps_pure h) fun _ => ?_
      exact (nodeOver_keeps _ hts).bind fun _ hnode => keeps_pure (h.append hnode.single)

theorem directiveParts_keeps (hc : c.Keeps d) (directive : Directive) (h : d.HoldsTrees p.trees) :
    Keeps d (directiveParts c directive p) fun p => d.HoldsTrees p.trees := by
  have hline {g : Grammar DirectiveParts} {semicolon : Bool}
      (hg : Keeps d g fun p => d.HoldsTrees p.trees) :
      Keeps d (do
        let p' ← g
        if p'.complete then lineEnd semicolon p' else return p') fun p => d.HoldsTrees p.trees :=
    hg.bind fun _ hp => keeps_ite (fun _ => lineEnd_keeps semicolon hp) fun _ => keeps_pure hp
  refine keeps_ite (fun _ => (importValue_keeps h).bind fun _ hp => lineEnd_keeps true hp) fun _ => ?_
  split
  · exact hline (values_keeps directive _ h)
  · exact (tagHelperLine_keeps directive h).bind fun _ hp => lineEnd_keeps false hp
  · exact hline (memberBlock_keeps hc directive h)
  · refine (values_keeps directive _ h).bind fun p hp => ?_
    exact keeps_ite (fun _ => keeps_pure hp) fun _ => hline (markupBlock_keeps hc directive hp)

theorem directive_keeps (hc : c.Keeps d) (h : d.HoldsTree transition) (name : Directive) :
    Keeps d (directive c transition name) d.HoldsTree := by
  refine bump_keeps.bind fun first hfirst => (nodeOver_keeps _ hfirst).bind fun node hnode => ?_
  refine (directiveParts_keeps hc name hnode.single).bind fun p hp => keeps_pure ?_
  have hbody := hp.spanning .directiveBody h.span
  exact holdsTree_spanning _ (h.cons hbody.single) (fun _ => h.span) (holdsLabel_some holdsAll_nil)

/-! ## Transitions -/

theorem strayTransition_keeps (hstart : d.Holds start) (h : d.HoldsTree transition) :
    Keeps d (strayTransition start transition) d.HoldsTree := by
  refine keeps_look (fun _ => rfl) fun _ => (report_keeps _ hstart).bind fun _ _ => ?_
  refine (nodeOver_keeps _ holdsTokens_nil).bind fun code hcode => keeps_pure ?_
  exact (h.cons hcode.single).spanning _ hstart

theorem transitionMark_keeps : Keeps d transitionMark fun mark => d.Holds mark.1 ∧ d.HoldsTree mark.2 := by
  refine here_keeps.bind fun start hstart => bump_keeps.bind fun mark hmark => ?_
  refine (nodeOver_keeps _ hmark).bind fun transition h => (switchTo_keeps _).bind fun _ _ => ?_
  exact keeps_pure ⟨hstart, h⟩

theorem CodeRule.keeps (hc : c.Keeps d) {start : Span} (hstart : d.Holds start) (ht : d.HoldsTree transition)
    {r : Reader} {g : Grammar Tree} (h : CodeRule c start transition r g) : Keeps d g d.HoldsTree := by
  cases h with
  | statements => exact statementBlock_keeps hc ht
  | explicit => exact explicitExpression_keeps ht
  | directive name => exact directive_keeps hc ht name
  | implicit => exact implicitExpression_keeps ht
  | stray => exact strayTransition_keeps hstart ht

theorem codeTransition_keeps (hc : c.Keeps d) : Keeps d (codeTransition c) d.HoldsTree := by
  intro r hr
  refine gives_codeTransition ((transitionMark_keeps r hr).mono ?_)
  rintro ⟨start, transition⟩ r₁ ⟨⟨hstart, ht⟩, hr₁⟩
  refine ⟨fun g hrule => ?_, keywordStatement_keeps hc ht r₁ hr₁⟩
  refine (hrule.keeps hc hstart ht r₁ hr₁).mono ?_
  rintro t r' ⟨ht, hr'⟩
  exact ⟨ht.single.spanning _ hstart, hr'⟩

end Grammar

end RazorLang
