import RazorLang.Grammar.Transition
import RazorLang.Proofs.Grammar.Directive

/-!
# Transitions from markup to code: what is read

Main statement: `codeTransition_reads`. The code behind a transition has less to read than the transition
itself, so that markup inside of it may be read by a rule that is only known to be sound there.

What is next behind the transition decides by which rule the code is read (`CodeRule`). This is gone through once,
in `gives_codeTransition`; whatever else is known of the code behind a transition is one fact for each of the rules.
-/

namespace RazorLang.Grammar

open Reader RazorLang.Tree

variable {c : Surroundings} {bound : Nat}

theorem usingIsStatement_looks : Looks usingIsStatement := fun _ => rfl

theorem strayTransition_reads {transition : Tree} (hmark : transition.IsMark) (start : Span)
    (r : Reader) :
    Gives (strayTransition start transition) r fun t r' =>
      r.Adds transition.tokens t.tokens r' ∧ t.Parsed := by
  unfold strayTransition
  simp only [gives_bind, gives_peek?, gives_nodeOver, gives_pure]
  refine (report_reads _ _ r).mono fun _ r' hreport => ?_
  refine ⟨?_, .expression (Or.inl rfl) [transition] [] ?_ [] _ _⟩
  · simpa using hreport.adds transition.tokens
  · intro t ht
    rw [List.mem_singleton.mp ht]
    exact hmark

/-- The transition that is next, and the place of the code that it leads to. -/
def transitionMark : Grammar (Span × Tree) := do
  let start ← here
  let transition ← nodeOver .codeTransition (← bump)
  switchTo .csharp
  return (start, transition)

/-- The rules for code that stands in a block behind its transition. -/
inductive CodeRule (c : Surroundings) (start : Span) (transition : Tree) (r : Reader) : Grammar Tree → Prop where
  | statements (hnext : HasNext r) : CodeRule c start transition r (statementBlock c transition)
  | explicit : CodeRule c start transition r (explicitExpression transition)
  | directive (d : Directive) (hnext : HasNext r) : CodeRule c start transition r (directive c transition d)
  | implicit : CodeRule c start transition r (implicitExpression transition)
  | stray : CodeRule c start transition r (strayTransition start transition)

/-- Behind a transition stands a block of code by one of the rules, or a statement, which is a block itself. -/
theorem gives_codeTransition {r : Reader} {P : Tree → Reader → Prop}
    (h : Gives transitionMark r fun mark r₁ =>
      (∀ g, CodeRule c mark.1 mark.2 r₁ g → Gives g r₁ fun t r' => P (Tree.spanning .codeBlock [t] mark.1) r') ∧
        Gives (keywordStatement c mark.2) r₁ P) :
    Gives (codeTransition c) r P := by
  unfold transitionMark at h
  unfold codeTransition
  simp only [gives_bind, gives_here, gives_nodeOver, gives_pure, gives_peek?] at h ⊢
  refine h.mono fun ts r₁ h => h.mono ?_
  rintro _ r₂ ⟨hrule, hstatement⟩
  generalize Span.empty r.tokenizer.path r.tokenizer.place = start at hrule ⊢
  generalize overTokens .codeTransition ts _ = transition at hrule hstatement ⊢
  have hblock {g : Grammar Tree} (hg : CodeRule c start transition r₂ g) :
      Gives (do return Tree.spanning .codeBlock [← g] start) r₂ P := gives_bind.mpr (hrule g hg)
  split
  · next t ht =>
    have hnext : HasNext r₂ := hasNext_of_peekNth (n := 0) ht
    split
    · exact hblock (.statements hnext)
    · exact hblock .explicit
    · split
      · rw [gives_bind]
        refine usingIsStatement_looks.gives fun isStatement => ?_
        split
        · exact hstatement
        · exact hblock (.directive _ hnext)
      · split
        · exact hstatement
        · split
          · exact hblock (.directive _ hnext)
          · exact hblock .implicit
    · split
      · exact hblock (.directive _ hnext)
      · exact hblock .implicit
    · exact hblock .stray
  · exact hblock .stray

theorem transitionMark_reads {r : Reader} (hnext : HasNext r) :
    Gives transitionMark r fun mark r' => r.Reads mark.2.tokens r' ∧ mark.2.IsMark ∧ r'.left < r.left := by
  unfold transitionMark
  simp only [gives_bind, gives_here, gives_nodeOver, gives_pure]
  refine (bump_reads r).mono ?_
  rintro ts r₁ ⟨hts, hless, _⟩
  refine (switchTo_reads .csharp r₁).mono fun _ r₂ hswitch => ⟨?_, ?_, ?_⟩
  · rw [tokens_overTokens]
    exact hts.trans_nil hswitch
  · exact ⟨.codeTransition, ts, _, Or.inl rfl, rfl⟩
  · exact Nat.lt_of_le_of_lt hswitch.left (hless hnext)

/-- Code behind a transition is read together with it. -/
theorem CodeRule.reads {start : Span} {transition : Tree} {r : Reader} (hc : c.Sound bound)
    (hmark : transition.IsMark) (hr : r.left < bound) {g : Grammar Tree} (h : CodeRule c start transition r g) :
    Gives g r fun t r' => r.Adds transition.tokens t.tokens r' ∧ t.Parsed := by
  cases h with
  | statements => exact statementBlock_reads hc hmark hr
  | explicit => exact explicitExpression_reads hmark r
  | directive d => exact directive_reads hc hmark d hr
  | implicit => exact implicitExpression_reads hmark r
  | stray => exact strayTransition_reads hmark start r

/-- The transition that is next is read with the code that it leads to. -/
theorem codeTransition_reads {r : Reader} (hc : c.Sound r.left) (hnext : HasNext r) :
    Gives (codeTransition c) r fun t r' =>
      r.Reads t.tokens r' ∧ t.Parsed ∧ r'.left < r.left := by
  refine gives_codeTransition ((transitionMark_reads hnext).mono ?_)
  rintro ⟨start, transition⟩ r₁ ⟨hread, hmark, hr₁⟩
  refine ⟨fun g hrule => ?_, ?_⟩
  · refine (hrule.reads hc hmark hr₁).mono ?_
    rintro t r' ⟨hadds, hparsed⟩
    rw [tokens_spanning, tokensAll_cons, tokensAll_nil, List.append_nil]
    exact ⟨hread.trans_adds hadds, .branch rfl (AllParsed.single hparsed) start, Nat.lt_of_le_of_lt hadds.left hr₁⟩
  · refine (keywordStatement_reads hc hmark hr₁).mono ?_
    rintro t r' ⟨hadds, hparsed⟩
    exact ⟨hread.trans_adds hadds, hparsed, Nat.lt_of_le_of_lt hadds.left hr₁⟩

end RazorLang.Grammar
