import RazorLang.Grammar.Block
import RazorLang.Proofs.Grammar.Expression

/-!
# Statements: what is read

The rules for statements put what they read into a `CodeRun`, so each of them extends the run that it is
given. They read markup by the rule that their surroundings hand in; `Surroundings.Sound` says what that
rule has to do, and only asks for it where less than a bound is left to read, since markup inside of code
is always behind the transition that led to the code. What a step along a block may do is said
once, in `gives_blockTurn`.
-/

namespace RazorLang

open RazorLang.Tree

/-- The rule for markup reads what it builds, wherever less than a bound is left to read; an element is
    not empty. -/
def Surroundings.Sound (c : Surroundings) (bound : Nat) : Prop :=
  ∀ scope r, r.left < bound → Grammar.Gives (c.markup scope) r fun trees r' =>
    r.Reads (tokensAll trees) r' ∧ AllParsed trees ∧
      (scope = .element → r.tokenizer.rest ≠ [] → r'.left < r.left)

namespace Grammar

open Reader

/-- A run of code grows by the tokens that are read. -/
def Extends (r : Reader) (run run' : CodeRun) (r' : Reader) : Prop :=
  r.Adds run.tokens run'.tokens r' ∧ (run.Parsed → run'.Parsed)

section Extends

variable {r r' r'' : Reader} {run run' run'' : CodeRun}

theorem Extends.refl (r : Reader) (run : CodeRun) : Extends r run run r := ⟨Adds.refl r _, id⟩

theorem Extends.trans (h : Extends r run run' r') (h' : Extends r' run' run'' r'') :
    Extends r run run'' r'' := ⟨h.1.trans h'.1, h'.2 ∘ h.2⟩

theorem Extends.left (h : Extends r run run' r') : r'.left ≤ r.left := h.1.left

theorem Extends.nil_trans (h : r.Reads [] r') (h' : Extends r' run run' r'') :
    Extends r run run' r'' := ⟨h'.1.nil_trans h, h'.2⟩

theorem Extends.trans_nil (h : Extends r run run' r') (h' : r'.Reads [] r'') :
    Extends r run run' r'' := ⟨h.1.trans_nil h', h.2⟩

theorem Extends.add {ts : List Token} (h : r.Reads ts r') (run : CodeRun) :
    Extends r run (run.add ts) r' :=
  ⟨⟨ts, CodeRun.tokens_add run ts, h⟩, fun hrun => hrun.add ts⟩

theorem Extends.push {t : Tree} (h : r.Reads t.tokens r') (ht : t.Parsed) (run : CodeRun) :
    Extends r run (run.push t) r' :=
  ⟨⟨t.tokens, CodeRun.tokens_push run t, h⟩, fun hrun => hrun.push ht⟩

/-- A turn that grows a run and asks for no other one. -/
theorem Extends.done (h : Extends r run run' r') (hrun : run.Parsed) :
    Advances (·.tokens) (·.Parsed) (·.Parsed) r run (.done run') r' := ⟨h.1, h.2 hrun⟩

/-- A turn that grows a run asks for another one behind what leaves less to read. -/
theorem Extends.again (h : Extends r run run' r') (hless : r'.left < r.left) (h' : Extends r' run' run'' r'')
    (hrun : run.Parsed) : Advances (·.tokens) (·.Parsed) (·.Parsed) r run (.again run'') r'' :=
  ⟨(h.trans h').1, (h.trans h').2 hrun, Nat.lt_of_le_of_lt h'.left hless⟩

end Extends

theorem takeInto_extends (run : CodeRun) (r : Reader) :
    Gives (takeInto run) r fun run' r' =>
      Extends r run run' r' ∧ (HasNext r → r'.left < r.left) := by
  unfold takeInto
  simp only [gives_bind, gives_pure]
  refine (bump_reads r).mono ?_
  rintro ts r' ⟨hts, hless, _⟩
  exact ⟨.add hts run, hless⟩

theorem markupFollows_looks (n : Nat) : Looks (markupFollows n) := by
  intro r
  unfold markupFollows
  simp only [gives_bind, gives_peekNth?]
  split
  · split
    all_goals rfl
  · rfl

/-! ## Markup between statements -/

section

variable {c : Surroundings} {bound : Nat}

theorem transitionNode_gives (transition : List Token) (r : Reader) :
    Gives (transitionNode transition) r fun trees r' =>
      r' = r ∧ tokensAll trees = transition ∧ AllParsed trees := by
  unfold transitionNode
  split
  · next hnone =>
      rw [List.isEmpty_iff.mp hnone]
      exact ⟨rfl, tokensAll_nil, allParsed_nil⟩
  · simp only [gives_bind, gives_nodeOver, gives_pure]
    exact ⟨trivial, by simp, .single (.leaf rfl transition _)⟩

/-- What is read of an element in code comes behind the transition that led to it. -/
theorem elementInCode_reads (hc : c.Sound bound) (transition : List Token) {r : Reader}
    (hr : r.left < bound) :
    Gives (elementInCode c transition) r fun t r' =>
      r.Adds transition t.tokens r' ∧ t.Parsed ∧ (r.tokenizer.rest ≠ [] → r'.left < r.left) := by
  unfold elementInCode
  simp only [gives_bind, gives_here, gives_pure]
  refine (transitionNode_gives transition r).mono ?_
  rintro lead r₀ ⟨hr₀, hlead, hparsed⟩
  subst hr₀
  refine (switchTo_reads .html r₀).mono fun _ r₁ hswitch => ?_
  have hr₁ := hswitch.left
  refine (hc .element r₁ (by omega)).mono ?_
  rintro trees r₂ ⟨htrees, hall, hless⟩
  refine ⟨?_, .branch rfl (hparsed.append hall) _, fun hrest => ?_⟩
  · rw [tokens_spanning, tokensAll_append, hlead]
    exact (hswitch.trans htrees).adds transition
  · rw [← hswitch.rest_eq] at hrest
    exact Nat.lt_of_lt_of_le (hless rfl hrest) hr₁

theorem lineInCode_reads (hc : c.Sound bound) {r : Reader} (hr : r.left < bound) :
    Gives (lineInCode c) r fun t r' =>
      r.Reads t.tokens r' ∧ t.Parsed ∧ (HasNext r → r'.left < r.left) := by
  unfold lineInCode
  simp only [gives_bind, gives_here, gives_nodeOver, gives_pure]
  refine (take_reads 2 r).mono ?_
  rintro lead r₁ ⟨hlead, hless⟩
  have hr₁ := hlead.left
  refine (switchTo_reads .html r₁).mono fun _ r₂ hswitch => ?_
  have hr₂ := hswitch.left
  refine (hc .line r₂ (by omega)).mono ?_
  rintro trees r₃ ⟨htrees, hall, _⟩
  have hr₃ := htrees.left
  refine ⟨?_, .branch rfl (AllParsed.cons (.leaf rfl lead _) hall) _, fun hnext => ?_⟩
  · simpa using (hlead.trans_nil hswitch).trans htrees
  · have := hless (by omega) hnext
    omega

/-! ## Blocks -/

/-- The rules for what stands between the statements of a block, each with what is next where it is used. -/
inductive BlockNode (c : Surroundings) (r : Reader) : Grammar Tree → Prop where
  | comment (hkind : r.tokenizer.peek?.map (·.kind) = some .commentTransition) : BlockNode c r razorComment
  | element (hkind : r.tokenizer.peek?.map (·.kind) = some .lessThan) : BlockNode c r (elementInCode c [])
  | line (hkind : r.tokenizer.peek?.map (·.kind) = some .transition) : BlockNode c r (lineInCode c)
  | marked (hkind : r.tokenizer.peek?.map (·.kind) = some .transition) :
      BlockNode c r (do elementInCode c (← bump))

/-- The rules that a step along a block comes down to, each with what is known where it does: it stops, it takes a
    brace, another token, or a node. -/
inductive BlockMove (c : Surroundings) (b : BlockState) (r : Reader) : Grammar (Turn BlockState) → Prop where
  | stop (hend : r.tokenizer.peek?.map (·.kind) = none ∨
      r.tokenizer.peek?.map (·.kind) = some .closeBrace ∧ b.depth = 0) : BlockMove c b r (pure (.done b))
  | closes (hkind : r.tokenizer.peek?.map (·.kind) = some .closeBrace) (hdepth : b.depth ≠ 0) :
      BlockMove c b r (do return .again ⟨← takeInto b.run, b.depth - 1, true⟩)
  | opens (hkind : r.tokenizer.peek?.map (·.kind) = some .openBrace) :
      BlockMove c b r (do return .again ⟨← takeInto b.run, b.depth + 1, true⟩)
  | token {kind : TokenKind} (fresh : Bool) (hkind : r.tokenizer.peek?.map (·.kind) = some kind)
      (hother : kind ≠ .openBrace ∧ kind ≠ .closeBrace) :
      BlockMove c b r (do return .again ⟨← takeInto b.run, b.depth, fresh⟩)
  | node {inner : Grammar Tree} (fresh : Bool) (hinner : BlockNode c r inner) :
      BlockMove c b r (do return .again ⟨b.run.push (← inner), b.depth, fresh⟩)

/-- A step along a block gives what each of its moves does behind the switch to code. -/
theorem gives_blockTurn {b : BlockState} {r : Reader} {P : Turn BlockState → Reader → Prop}
    (h : Gives (switchTo .csharp) r fun _ r₁ => ∀ g, BlockMove c b r₁ g → Gives g r₁ P) :
    Gives (blockTurn c b) r P := by
  unfold blockTurn
  rw [gives_bind]
  refine h.mono fun _ r₁ h => ?_
  rw [gives_bind, gives_kind?]
  split
  · next hkind => exact h _ (.stop (.inl hkind))
  · next hkind =>
      split
      · next hzero => exact h _ (.stop (.inr ⟨hkind, hzero⟩))
      · next hdepth => exact h _ (.closes hkind hdepth)
  · next hkind => exact h _ (.opens hkind)
  · next hkind => exact h _ (.token _ hkind (by decide))
  · next hkind => exact h _ (.token _ hkind (by decide))
  · next hkind => exact h _ (.token _ hkind (by decide))
  · next hkind => exact h _ (.token _ hkind (by decide))
  · next hkind => exact h _ (.token _ hkind (by decide))
  · next hkind => exact h _ (.node _ (.comment hkind))
  · next hkind =>
      rw [gives_bind]
      refine (markupFollows_looks 1).gives fun markup => ?_
      split
      · exact h _ (.node _ (.element hkind))
      · exact h _ (.token _ hkind (by decide))
  · next hkind =>
      rw [gives_bind, gives_kindAt?]
      split
      · exact h _ (.node _ (.line hkind))
      · rw [gives_bind]
        refine (markupFollows_looks 2).gives fun markup => ?_
        split
        · exact h _ (.node _ (.marked hkind))
        · exact h _ (.token _ hkind (by decide))
      · exact h _ (.token _ hkind (by decide))
  · next hclose hopen _ _ _ _ _ _ _ _ hkind =>
      refine h _ (.token _ hkind ⟨?_, ?_⟩)
      · exact fun heq => hopen (heq ▸ rfl)
      · exact fun heq => hclose (heq ▸ rfl)

/-- What stands between statements is read as a node, and it is not nothing. -/
theorem BlockNode.reads (hc : c.Sound bound) {r : Reader} (hr : r.left < bound) {inner : Grammar Tree}
    (h : BlockNode c r inner) :
    Gives inner r fun t r' => r.Reads t.tokens r' ∧ t.Parsed ∧ r'.left < r.left := by
  cases h with
  | comment hkind =>
      exact (razorComment_reads r).mono fun t r' ⟨ht, hparsed, hless⟩ => ⟨ht, hparsed, hless hkind⟩
  | element hkind =>
      refine (elementInCode_reads hc [] hr).mono ?_
      rintro t r' ⟨ht, hparsed, hless⟩
      exact ⟨adds_nil.mp ht, hparsed, hless (rest_ne_nil_of_kind hkind (by decide))⟩
  | line hkind =>
      exact (lineInCode_reads hc hr).mono fun t r' ⟨ht, hparsed, hless⟩ =>
        ⟨ht, hparsed, hless (hasNext_of_kind hkind)⟩
  | marked hkind =>
      simp only [gives_bind]
      refine (bump_reads r).mono ?_
      rintro transition r₁ ⟨htransition, hless, _⟩
      have hless := hless (hasNext_of_kind hkind)
      refine (elementInCode_reads hc transition (Nat.lt_trans hless hr)).mono ?_
      rintro t r₂ ⟨ht, hparsed, _⟩
      exact ⟨htransition.trans_adds ht, hparsed, Nat.lt_of_le_of_lt ht.left hless⟩

/-- One step along a block of statements extends its run. -/
theorem blockTurn_advances (hc : c.Sound bound) (b : BlockState) {r : Reader}
    (hr : r.left < bound) (hb : b.run.Parsed) :
    Gives (blockTurn c b) r
      (Advances (·.run.tokens) (·.run.Parsed) (·.run.Parsed) r b) := by
  refine gives_blockTurn ((switchTo_reads .csharp r).mono fun _ r₁ hswitch g hmove => ?_)
  have hr₁ := hswitch.left
  have hagain {r' : Reader} {b' : BlockState} (h : Extends r₁ b.run b'.run r')
      (hless : r'.left < r₁.left) :
      Advances (·.run.tokens) (·.run.Parsed) (·.run.Parsed) r b (.again b') r' :=
    ⟨(h.nil_trans hswitch).1, h.2 hb, Nat.lt_of_lt_of_le hless hr₁⟩
  cases hmove with
  | stop => exact ⟨((Extends.refl r₁ b.run).nil_trans hswitch).1, hb⟩
  | closes hkind | opens hkind | token _ hkind =>
      simp only [gives_bind, gives_pure]
      refine (takeInto_extends b.run r₁).mono ?_
      rintro run r₂ ⟨hrun, hless⟩
      exact hagain hrun (hless (hasNext_of_kind hkind))
  | node _ hinner =>
      simp only [gives_bind, gives_pure]
      refine (hinner.reads hc (Nat.lt_of_le_of_lt hr₁ hr)).mono ?_
      rintro t r₂ ⟨ht, hparsed, hless⟩
      exact hagain (.push ht hparsed b.run) hless

theorem blockStatements_extends (hc : c.Sound bound) (run : CodeRun) {r : Reader}
    (hr : r.left < bound) (hrun : run.Parsed) :
    Gives (blockStatements c run) r (Extends r run) := by
  unfold blockStatements
  simp only [gives_bind]
  refine (gives_loop (a := { run }) (fun b r' hle hb =>
    blockTurn_advances hc b (Nat.lt_of_le_of_lt hle hr) hb) hrun).mono ?_
  rintro b r₁ ⟨hadds, hb⟩
  have hend : Extends r run b.run r₁ := ⟨hadds, fun _ => hb⟩
  simp only [gives_peek?]
  split
  · simp only [gives_bind, gives_here, gives_pure]
    exact (report_reads _ _ r₁).mono fun _ r₂ hreport => hend.trans_nil hreport
  · exact hend

theorem closeBraceNode_reads (r : Reader) :
    Gives closeBraceNode r fun trees r' => r.Reads (tokensAll trees) r' ∧ AllParsed trees := by
  unfold closeBraceNode
  simp only [gives_bind, gives_isAt]
  refine (switchTo_reads .csharp r).mono fun _ r₁ hswitch => ?_
  split
  · simp only [gives_bind, gives_nodeOver, gives_pure]
    refine (bump_reads r₁).mono ?_
    rintro ts r₂ ⟨hts, _⟩
    refine ⟨?_, .single (.leaf rfl ts _)⟩
    simpa using hswitch.trans hts
  · rw [gives_pure, tokensAll_nil]
    exact ⟨hswitch, allParsed_nil⟩

theorem codeBlockNode_reads (hc : c.Sound bound) {r : Reader} (hr : r.left < bound) :
    Gives (codeBlockNode c) r fun t r' => r.Reads t.tokens r' ∧ t.Parsed := by
  unfold codeBlockNode
  simp only [gives_bind, gives_here, gives_pure]
  refine (blockStatements_extends hc {} hr allParsed_nil).mono ?_
  rintro run r₁ ⟨hadds, hrun⟩
  refine ⟨?_, .branch rfl (hrun allParsed_nil).finish _⟩
  rw [tokens_spanning, CodeRun.tokens_finish]
  exact adds_nil.mp (by simpa [CodeRun.tokens] using hadds)

theorem statementBlock_reads (hc : c.Sound bound) {transition : Tree}
    (hmark : transition.IsMark) {r : Reader} (hr : r.left < bound) :
    Gives (statementBlock c transition) r fun t r' =>
      r.Adds transition.tokens t.tokens r' ∧ t.Parsed := by
  unfold statementBlock
  simp only [gives_bind, gives_nodeOver, gives_pure]
  refine (bump_reads r).mono ?_
  rintro opened r₁ ⟨hopened, _⟩
  have hr₁ := hopened.left
  refine (codeBlockNode_reads hc (r := r₁) (by omega)).mono ?_
  rintro code r₂ ⟨hcode, hparsed⟩
  refine (closeBraceNode_reads r₂).mono ?_
  rintro closed r₃ ⟨hclosed, hall⟩
  have hparts (place : Span) :
      AllParsed ([overTokens .metaCode opened place, code] ++ closed) :=
    (AllParsed.cons (.leaf rfl opened place) (.single hparsed)).append hall
  refine ⟨?_, .branch rfl (AllParsed.cons hmark.parsed (.single (.branch rfl (hparts _) _))) _⟩
  simpa using (hopened.trans (hcode.trans hclosed)).adds transition.tokens

/-! ## Statements that a keyword starts -/

theorem takeTriviaInto_extends (run : CodeRun) (acrossLines : Bool) (r : Reader) :
    Gives (takeTriviaInto run acrossLines) r (Extends r run) := by
  unfold takeTriviaInto
  simp only [gives_bind, gives_pure]
  exact (takeTrivia_reads acrossLines r).mono fun ts r' hts => .add hts run

theorem condition_extends (run : CodeRun) (r : Reader) :
    Gives (condition run) r (Extends r run) := by
  unfold condition
  simp only [gives_bind, gives_isAt]
  refine (takeTriviaInto_extends run true r).mono fun run₁ r₁ hrun₁ => ?_
  split
  · simp only [gives_bind]
    refine (takeBalanced_reads .openParen .closeParen r₁).mono ?_
    rintro p r₂ ⟨htaken, _⟩
    obtain ⟨ts, closed⟩ := p
    have hadd := hrun₁.trans (.add htaken run₁)
    dsimp only
    split
    · simp only [gives_bind, gives_here, gives_pure]
      exact (report_reads _ _ r₂).mono fun _ r₃ hreport => hadd.trans_nil hreport
    · exact hadd
  · exact hrun₁

theorem plainBodyTurn_advances (s : CodeRun × Nat) (r : Reader) (hs : s.1.Parsed) :
    Gives (plainBodyTurn s) r
      (Advances (·.1.tokens) (·.1.Parsed) (·.1.Parsed) r s) := by
  obtain ⟨run, depth⟩ := s
  unfold plainBodyTurn
  simp only [gives_bind, gives_kind?]
  split
  · exact ⟨Adds.refl r _, hs⟩
  · next kind hkind =>
      simp only [gives_bind]
      refine (takeInto_extends run r).mono ?_
      rintro run' r' ⟨hrun, hless⟩
      have hless := hless (hasNext_of_kind hkind)
      have hend (n : Nat) :
          Gives (if kind == .semicolon && n == 0 then pure (Turn.done (run', n))
            else pure (Turn.again (run', n))) r'
            (Advances (·.1.tokens) (·.1.Parsed) (·.1.Parsed) r (run, depth)) := by
        split
        · exact ⟨hrun.1, hrun.2 hs⟩
        · exact ⟨hrun.1, hrun.2 hs, hless⟩
      exact hend _

theorem body_extends (hc : c.Sound bound) (run : CodeRun) {r : Reader} (hr : r.left < bound)
    (hrun : run.Parsed) : Gives (body c run) r (Extends r run) := by
  unfold body
  simp only [gives_bind, gives_isAt]
  refine (switchTo_reads .csharp r).mono fun _ r₁ hswitch => ?_
  have hr₁ := hswitch.left
  refine (takeTriviaInto_extends run true r₁).mono fun run₂ r₂ hrun₂ => ?_
  have hlead := hrun₂.nil_trans hswitch
  have hr₂ := hlead.left
  split
  · simp only [gives_bind, gives_isAt]
    refine (takeInto_extends run₂ r₂).mono ?_
    rintro run₃ r₃ ⟨hrun₃, _⟩
    have hopened := hlead.trans hrun₃
    have hr₃ := hopened.left
    refine (blockStatements_extends hc run₃ (r := r₃) (by omega) (hopened.2 hrun)).mono
      fun run₄ r₄ hrun₄ => ?_
    refine (switchTo_reads .csharp r₄).mono fun _ r₅ hback => ?_
    have hblock := (hopened.trans hrun₄).trans_nil hback
    split
    · refine (takeInto_extends run₄ r₅).mono ?_
      rintro run₅ r₆ ⟨hrun₅, _⟩
      exact hblock.trans hrun₅
    · exact hblock
  · simp only [gives_bind]
    refine (gives_loop (a := (run₂, 0)) (fun s r' _ hs => plainBodyTurn_advances s r' hs)
      (hlead.2 hrun)).mono ?_
    rintro s r₃ ⟨hadds, hs⟩
    exact hlead.trans ⟨hadds, fun _ => hs⟩

/-- A continuation takes nothing unless it finds its keyword. -/
theorem continuation_extends (run : CodeRun) (words : List Text) (r : Reader) :
    Gives (continuation run words) r fun p r' =>
      Extends r run p.1 r' ∧ (p.2.isSome = true → r'.left < r.left) := by
  unfold continuation
  simp only [gives_bind, gives_placeBehind, gives_peekNth?]
  refine (switchTo_reads .csharp r).mono fun _ r₁ hswitch => ?_
  have hr₁ := hswitch.left
  have hnone : Extends r run run r₁ := (Extends.refl r₁ run).nil_trans hswitch
  split
  · next t ht =>
      split
      · simp only [gives_bind, gives_pure]
        refine (take_reads _ r₁).mono ?_
        rintro ts r₂ ⟨hts, hless⟩
        refine ⟨(Extends.add hts run).nil_trans hswitch, fun _ => ?_⟩
        have := hless (by omega) (hasNext_of_peekNth ht)
        omega
      · exact ⟨hnone, fun h => absurd h Bool.false_ne_true⟩
  · exact ⟨hnone, fun h => absurd h Bool.false_ne_true⟩

theorem condition_body_extends (hc : c.Sound bound) (run : CodeRun) {r : Reader} (hr : r.left < bound)
    (hrun : run.Parsed) :
    Gives (condition run) r fun run₁ r₁ => Gives (body c run₁) r₁ (Extends r run) := by
  refine (condition_extends run r).mono fun run₁ r₁ hcondition => ?_
  have hr₁ := Nat.lt_of_le_of_lt hcondition.left hr
  exact (body_extends hc run₁ hr₁ (hcondition.2 hrun)).mono fun _ _ hbody => hcondition.trans hbody

theorem handlerTurn_advances (hc : c.Sound bound) (run : CodeRun) {r : Reader}
    (hr : r.left < bound) (hrun : run.Parsed) :
    Gives (handlerTurn c run) r (Advances (·.tokens) (·.Parsed) (·.Parsed) r run) := by
  unfold handlerTurn
  rw [gives_bind]
  refine (continuation_extends run _ r).mono ?_
  rintro ⟨run₁, word⟩ r₁ ⟨hfound, hless⟩
  have hr₁ := Nat.lt_of_le_of_lt hfound.left hr
  cases word with
  | none => exact hfound.done hrun
  | some word =>
      dsimp only
      split
      · rw [gives_bind]
        exact (body_extends hc run₁ hr₁ (hfound.2 hrun)).mono fun _ _ h => (hfound.trans h).done hrun
      · rw [gives_bind]
        exact (condition_body_extends hc run₁ hr₁ (hfound.2 hrun)).mono
          fun _ _ h => h.mono fun _ _ h => hfound.again (hless rfl) h hrun

theorem alternativeTurn_advances (hc : c.Sound bound) (run : CodeRun) {r : Reader}
    (hr : r.left < bound) (hrun : run.Parsed) :
    Gives (alternativeTurn c run) r (Advances (·.tokens) (·.Parsed) (·.Parsed) r run) := by
  unfold alternativeTurn
  rw [gives_bind]
  refine (continuation_extends run _ r).mono ?_
  rintro ⟨run₁, word⟩ r₁ ⟨hfound, hless⟩
  have hr₁ := Nat.lt_of_le_of_lt hfound.left hr
  cases word with
  | none => exact hfound.done hrun
  | some word =>
      dsimp only
      rw [gives_bind, gives_placeBehind, gives_bind, gives_peekNth?]
      split
      · rw [gives_bind]
        refine (takeTriviaInto_extends run₁ true r₁).mono fun run₂ r₂ htrivia => ?_
        rw [gives_bind]
        refine (takeInto_extends run₂ r₂).mono ?_
        rintro run₃ r₃ ⟨hword, -⟩
        have hlead := htrivia.trans hword
        rw [gives_bind]
        exact (condition_body_extends hc run₃ (Nat.lt_of_le_of_lt hlead.left hr₁) (hlead.2 (hfound.2 hrun))).mono
          fun _ _ h => h.mono fun _ _ h => hfound.again (hless rfl) (hlead.trans h) hrun
      · rw [gives_bind]
        exact (body_extends hc run₁ hr₁ (hfound.2 hrun)).mono fun _ _ h => (hfound.trans h).done hrun

theorem keywordStatement_reads (hc : c.Sound bound) {transition : Tree}
    (hmark : transition.IsMark) {r : Reader} (hr : r.left < bound) :
    Gives (keywordStatement c transition) r fun t r' =>
      r.Adds transition.tokens t.tokens r' ∧ t.Parsed := by
  have hstart : CodeRun.Parsed { trees := [transition] } := .single hmark.parsed
  -- wherever the statement ends, its run becomes one block
  have hend {run : CodeRun} {r' : Reader} (h : Extends r { trees := [transition] } run r') :
      Gives (pure (Tree.spanning .codeBlock run.finish transition.span)) r' fun t r' =>
        r.Adds transition.tokens t.tokens r' ∧ t.Parsed := by
    rw [gives_pure, tokens_spanning, CodeRun.tokens_finish]
    refine ⟨?_, .branch rfl (h.2 hstart).finish _⟩
    simpa [CodeRun.tokens] using h.1
  unfold keywordStatement
  simp only [gives_bind, gives_peek?]
  refine (takeInto_extends _ r).mono ?_
  rintro run₁ r₁ ⟨hword, _⟩
  have hr₁ := hword.left
  have hrun₁ := hword.2 hstart
  split
  · simp only [gives_bind]
    refine (body_extends hc run₁ (r := r₁) (by omega) hrun₁).mono fun run₂ r₂ hbody => ?_
    refine (continuation_extends run₂ _ r₂).mono ?_
    rintro p r₃ ⟨hfound, _⟩
    have hlead := hword.trans (hbody.trans hfound)
    obtain ⟨run₃, word⟩ := p
    cases word with
    | none => exact hend hlead
    | some word =>
        dsimp only at hlead ⊢
        simp only [gives_bind, gives_isAt]
        refine (condition_extends run₃ r₃).mono fun run₄ r₄ hcondition => ?_
        refine (takeTriviaInto_extends run₄ false r₄).mono fun run₅ r₅ htrivia => ?_
        have hall := hlead.trans (hcondition.trans htrivia)
        split
        · simp only [gives_bind]
          refine (takeInto_extends run₅ r₅).mono ?_
          rintro run₆ r₆ ⟨hsemicolon, _⟩
          exact hend (hall.trans hsemicolon)
        · exact hend hall
  · split
    · simp only [gives_bind]
      refine (body_extends hc run₁ (r := r₁) (by omega) hrun₁).mono fun run₂ r₂ hbody => ?_
      have hr₂ := hbody.left
      refine (gives_loop (fun run r' hle hrun =>
        handlerTurn_advances hc run (by omega) hrun) (hbody.2 hrun₁)).mono fun run₃ r₃ hloop => ?_
      exact hend (hword.trans (hbody.trans ⟨hloop.1, fun _ => hloop.2⟩))
    · simp only [gives_bind]
      refine (condition_body_extends hc run₁ (r := r₁) (by omega) hrun₁).mono
        fun _ _ h => h.mono fun run₂ r₂ hbody => ?_
      have hr₂ := hbody.left
      have hlead := hword.trans hbody
      split
      · simp only [gives_bind]
        refine (gives_loop (fun run r' hle hrun =>
          alternativeTurn_advances hc run (by omega) hrun) (hlead.2 hstart)).mono
          fun run₃ r₃ hloop => ?_
        exact hend (hlead.trans ⟨hloop.1, fun _ => hloop.2⟩)
      · exact hend hlead

end

end Grammar

end RazorLang
