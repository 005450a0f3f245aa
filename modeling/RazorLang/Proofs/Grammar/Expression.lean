import RazorLang.Grammar.Expression
import RazorLang.Proofs.Grammar.Reader

/-!
# Expressions in markup: what is read

Both kinds of expressions read the tokens of their piece of code one behind the other, and build a node
with exactly that piece behind the transition that is handed in (`implicitExpression_reads`,
`explicitExpression_reads`).
-/

namespace RazorLang.Grammar

open Reader RazorLang.Tree

theorem memberAt_looks (n : Nat) : Looks (memberAt n) := by
  intro r
  unfold memberAt
  simp only [gives_bind, gives_kindAt?]
  split
  all_goals rfl

theorem awaitAhead_looks : Looks awaitAhead := by
  intro r
  unfold awaitAhead
  simp only [gives_bind, gives_peek?]
  split
  · simp only [gives_bind, gives_kindAt?]
    split
    · exact memberAt_looks 2 r
    · rfl
  · rfl

/-- What stands in brackets goes on with the expression if they are balanced, and else ends it. -/
theorem brackets_collect (opening closing : TokenKind) {cause : Cause} {start : Span} {ts : List Token} {r : Reader}
    (hnext : HasNext r) :
    Gives (do
      let (taken, closed) ← takeBalanced opening closing
      if closed then return Turn.again (ts ++ taken)
      report cause start
      return .done (ts ++ taken)) r (Collects r ts) := by
  simp only [gives_bind]
  refine (takeBalanced_reads opening closing r).mono ?_
  rintro p r' ⟨htaken, hless⟩
  split
  · exact .again htaken (hless hnext) ts
  · simp only [gives_bind, gives_pure]
    refine (report_reads _ _ r').mono fun _ r'' hreport => ?_
    exact .done (htaken.trans_nil hreport) ts

theorem implicitTurn_collects (start : Span) (ts : List Token) (r : Reader) :
    Gives (implicitTurn start ts) r (Collects r ts) := by
  unfold implicitTurn
  simp only [gives_bind, gives_kind?]
  -- by the next token: the brackets of a call or an index, a member, a member of what may be nothing, or the mark
  -- behind a value
  split
  · next hkind => exact brackets_collect .openParen .closeParen (hasNext_of_kind hkind)
  · next hkind => exact brackets_collect .openBracket .closeBracket (hasNext_of_kind hkind)
  · next hkind =>
      simp only [gives_bind]
      refine (memberAt_looks 1).gives fun member => ?_
      split
      · simp only [gives_bind, gives_pure]
        refine (take_reads 2 r).mono ?_
        rintro taken r' ⟨htaken, hless⟩
        exact .again htaken (hless (by omega) (hasNext_of_kind hkind)) ts
      · exact .stop r ts
  · next hkind =>
      simp only [gives_bind, gives_kindAt?]
      split
      · simp only [gives_bind]
        refine (memberAt_looks 2).gives fun member => ?_
        split
        · simp only [gives_bind, gives_pure]
          refine (take_reads 3 r).mono ?_
          rintro taken r' ⟨htaken, hless⟩
          exact .again htaken (hless (by omega) (hasNext_of_kind hkind)) ts
        · exact .stop r ts
      · simp only [gives_bind]
        refine (bump_reads r).mono ?_
        rintro mark r' ⟨hmark, hless, _⟩
        refine (takeBalanced_reads .openBracket .closeBracket r').mono ?_
        rintro p r'' ⟨htaken, _⟩
        have hboth := hmark.trans htaken
        rw [List.append_assoc]
        split
        · refine .again hboth ?_ ts
          exact Nat.lt_of_le_of_lt htaken.left (hless (hasNext_of_kind hkind))
        · exact .done hboth ts
      · exact .stop r ts
  · next hkind =>
      simp only [gives_bind, gives_kindAt?]
      have hnot : Gives (do return Turn.again (ts ++ (← bump))) r (Collects r ts) := by
        simp only [gives_bind, gives_pure]
        refine (bump_reads r).mono ?_
        rintro taken r' ⟨htaken, hless, _⟩
        exact .again htaken (hless (hasNext_of_kind hkind)) ts
      split
      · exact hnot
      · exact hnot
      · exact .stop r ts
  · exact .stop r ts

theorem awaitWord_reads (r : Reader) : Gives awaitWord r r.Reads := by
  unfold awaitWord
  simp only [gives_bind]
  refine awaitAhead_looks.gives fun await => ?_
  split
  · exact (take_reads 2 r).mono fun _ _ h => h.1
  · exact Reads.refl r

theorem implicitExpression_reads {transition : Tree} (hmark : transition.IsMark) (r : Reader) :
    Gives (implicitExpression transition) r fun t r' =>
      r.Adds transition.tokens t.tokens r' ∧ t.Parsed := by
  unfold implicitExpression
  simp only [gives_bind, gives_nodeOver, gives_pure]
  refine (awaitWord_reads r).mono fun lead r₁ hlead => ?_
  refine (bump_reads r₁).mono ?_
  rintro first r₂ ⟨hfirst, _⟩
  refine (gives_loop_collects (implicitTurn_collects transition.span) _ r₂).mono
    fun ts r₃ hloop => ?_
  have hts := (hlead.trans hfirst).trans_adds hloop
  refine ⟨?_, .expression (Or.inl rfl) [transition] [] ?_ ts _ _⟩
  · simpa using hts.adds transition.tokens
  · intro t ht
    rw [List.mem_singleton.mp ht]
    exact hmark

/-- The tokens of an explicit expression behind its opening parenthesis. -/
theorem explicitTurn_advances (s : List Token × Nat × List Token) (r : Reader) (hs : s.2.2 = []) :
    Gives (explicitTurn s) r
      (Advances (fun s => s.1 ++ s.2.2) (fun s => s.2.2 = []) (fun _ => True) r s) := by
  obtain ⟨ts, depth, closing⟩ := s
  subst hs
  have hplain {n : Nat} (hnext : HasNext r) :
      Gives (do return Turn.again (ts ++ (← bump), n, [])) r
        (Advances (fun s => s.1 ++ s.2.2) (fun s => s.2.2 = []) (fun _ => True) r
          (ts, depth, [])) := by
    simp only [gives_bind, gives_pure]
    refine (bump_reads r).mono ?_
    rintro taken r' ⟨htaken, hless, _⟩
    refine ⟨?_, rfl, hless hnext⟩
    simpa [Turn.value] using htaken.adds ts
  unfold explicitTurn
  simp only [gives_bind, gives_kind?]
  split
  · exact .stop trivial r
  · next hkind =>
      split
      · simp only [gives_bind, gives_pure]
        refine (bump_reads r).mono ?_
        rintro taken r' ⟨htaken, _⟩
        refine ⟨?_, trivial⟩
        simpa [Turn.value] using htaken.adds ts
      · exact hplain (hasNext_of_kind hkind)
  · next hkind => exact hplain (hasNext_of_kind hkind)
  · next hkind => exact hplain (hasNext_of_kind hkind)

theorem explicitExpression_reads {transition : Tree} (hmark : transition.IsMark) (r : Reader) :
    Gives (explicitExpression transition) r fun t r' =>
      r.Adds transition.tokens t.tokens r' ∧ t.Parsed := by
  have mark (ts : List Token) (place : Span) : (overTokens .metaCode ts place).IsMark :=
    ⟨.metaCode, ts, place, Or.inr rfl, rfl⟩
  unfold explicitExpression
  simp only [gives_bind, gives_nodeOver]
  refine (bump_reads r).mono ?_
  rintro opened r₁ ⟨hopened, _⟩
  refine (gives_loop (a := ([], 0, [])) (fun s r _ => explicitTurn_advances s r) rfl).mono ?_
  rintro s r₂ ⟨hloop, _⟩
  obtain ⟨ts, depth, closing⟩ := s
  have hts : r₁.Reads (ts ++ closing) r₂ := adds_nil.mp hloop
  have hall := hopened.trans hts
  dsimp only
  split
  · next hnone =>
      rw [List.isEmpty_iff.mp hnone, List.append_nil] at hall
      simp only [gives_bind, gives_pure]
      refine (report_reads _ _ r₂).mono fun _ r₃ hreport => ?_
      refine ⟨?_, .expression (Or.inr rfl) [transition, _] [] ?_ ts _ _⟩
      · simpa using (hall.trans_nil hreport).adds transition.tokens
      · simpa using ⟨hmark, mark opened _⟩
  · simp only [gives_bind, gives_nodeOver, gives_pure]
    refine ⟨?_, .expression (Or.inr rfl) [transition, _] [_] ?_ ts _ _⟩
    · simpa using hall.adds transition.tokens
    · simpa using ⟨hmark, mark opened _, mark closing _⟩

end RazorLang.Grammar
