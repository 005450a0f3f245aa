import RazorLang.Proofs.Grammar.Derivation

/-!
# Derivations of code

The rules for statements, directives and transitions make derivations. A block of statements counts the
braces of its own tokens only: what is between them is read by other rules and put aside as trees
(`CodeRun.code`). A block that the source ends in is reported before the node that it is in is complete, so
up to there its rules lead to one of two states: what has been read stands as it is, or it ends with the
source and the report is still to be accounted for (`CodeRun.Ends`, `DirectiveParts.Ends`).

Main statements: `statementBlock_derives`, `keywordStatement_derives`.
-/

namespace RazorLang

open RazorLang.Tree Reader

/-- The surroundings of code read markup as it is derived. -/
def Surroundings.Faithful (c : Surroundings) : Prop :=
  ∀ scope r, Grammar.Gives (c.markup scope) r (Derives false r)

/-! ## Runs of code -/

namespace CodeRun

variable {run : CodeRun} {r r' r₀ : Reader} {ts : List Token} {t : Tree}

/-- The tokens directly in the statements of a run, without those of the trees between them. -/
def code (run : CodeRun) : List Token := statementTokensAll run.trees ++ run.pending

@[simp] theorem code_add (run : CodeRun) (ts : List Token) : (run.add ts).code = run.code ++ ts :=
  (List.append_assoc ..).symm

theorem statementTokensAll_flush (run : CodeRun) : statementTokensAll run.flush.trees = run.code := by
  unfold flush
  split
  · next hnone => rw [code, List.isEmpty_iff.mp hnone, List.append_nil]
  · show statementTokensAll (run.trees ++ [overTokens .statementCode run.pending default]) = _
    rw [statementTokensAll, List.filter_append, List.flatMap_append]
    show statementTokensAll run.trees ++ ((overTokens .statementCode run.pending default).ownTokens ++ []) = _
    rw [List.append_nil, ownTokens_overTokens]
    rfl

/-- A tree between statements adds nothing to their tokens. -/
theorem code_push (run : CodeRun) (ht : t.kind? ≠ some .statementCode) : (run.push t).code = run.code := by
  show statementTokensAll (run.flush.trees ++ [t]) ++ run.flush.pending = _
  rw [statementTokensAll, List.filter_append, List.filter_singleton, beq_eq_false_iff_ne.mpr ht, pending_flush,
    List.append_nil, cond_false, List.append_nil]
  exact run.statementTokensAll_flush

theorem statementTokens_finish (run : CodeRun) (kind : NodeKind) (place : Span) :
    (Tree.spanning kind run.finish place).statementTokens = run.code := run.statementTokensAll_flush

/-- The trees of a run are derived from where it starts, and its pending tokens follow them. -/
def Stands (r₀ : Reader) (run : CodeRun) (r : Reader) : Prop :=
  ∃ r₁, Derives false r₀ run.trees r₁ ∧ Grammar.Gathers r₁ run.pending r

theorem Stands.add (h : run.Stands r₀ r) (hts : r.Passes ts r') : (run.add ts).Stands r₀ r' := by
  obtain ⟨r₁, htrees, hpending⟩ := h
  exact ⟨r₁, htrees, hpending.add hts⟩

theorem Stands.pass (h : run.Stands r₀ r) (h' : r.Passes [] r') : run.Stands r₀ r' := by
  obtain ⟨r₁, htrees, hpending⟩ := h
  exact ⟨r₁, htrees, Derives.pass hpending h'⟩

theorem Stands.note (h : run.Stands r₀ r) {cause : Cause} {span : Span} (aside : cause.isAside = true) :
    run.Stands r₀ (r.note [⟨cause, span⟩]) := by
  obtain ⟨r₁, htrees, hpending⟩ := h
  exact ⟨r₁, htrees, hpending.note aside⟩

theorem Stands.finish (h : run.Stands r₀ r) : Derives false r₀ run.finish r := by
  obtain ⟨r₁, htrees, hpending⟩ := h
  unfold CodeRun.finish flush
  split
  · next hnone =>
      rw [List.isEmpty_iff.mp hnone] at hpending
      have := htrees.append hpending
      rwa [List.map_nil, List.append_nil] at this
  · exact htrees.append (hpending.node rfl)

theorem Stands.push (h : run.Stands r₀ r) (ht : Derives false r [t] r') : (run.push t).Stands r₀ r' := by
  refine ⟨r', h.finish.append ht, ?_⟩
  show Grammar.Gathers r' run.flush.pending r'
  rw [pending_flush]
  exact .refl r'

/-- A run that ends with the source in the middle of a block, which has been reported. -/
def Ends (r₀ : Reader) (run : CodeRun) (r : Reader) : Prop :=
  ∃ r₁, run.Stands r₀ r₁ ∧ LeavesTokenOpen .openBrace .closeBrace run.code ∧ r₁.AtEnd ∧
    (r₁.note [r₁.unended "code"]).Passes [] r ∧ r.AtEnd

theorem Ends.pass (h : run.Ends r₀ r) (h' : r.Passes [] r') (hend : r'.AtEnd) : run.Ends r₀ r' := by
  obtain ⟨r₁, hstands, hopen, hatEnd, hpasses, -⟩ := h
  exact ⟨r₁, hstands, hopen, hatEnd, hpasses.trans h', hend⟩

/-- How a run goes on behind the body of a statement. -/
def Goes (r₀ : Reader) (run : CodeRun) (r : Reader) : Prop := run.Stands r₀ r ∨ run.Ends r₀ r

/-- How far the statements of a keyword have been read. -/
structure Going (r₀ : Reader) (bound : Nat) (run : CodeRun) (r : Reader) : Prop where
  goes : run.Goes r₀ r
  parsed : run.Parsed
  left : r.left < bound

theorem Going.stalled {bound : Nat} (h : run.Going r₀ bound r) :
    run.Going r₀ bound { r with stalled := true } := by
  refine ⟨?_, h.parsed, h.left⟩
  rcases h.goes with hstands | hends
  · exact Or.inl (hstands.pass (passes_stalled r))
  · exact Or.inr (hends.pass (passes_stalled r) hends.choose_spec.2.2.2.2)

/-- A run as the node of a statement, with what is left open in it. -/
theorem Goes.derives (h : run.Goes r₀ r) (inside : Bool) (place : Span) :
    Derives inside r₀ [Tree.spanning .codeBlock run.finish place] r := by
  rcases h with hstands | ⟨r₁, hstands, hopen, hatEnd, hpasses, -⟩
  · exact hstands.finish.simple rfl
  · refine hstands.finish.openBlock (Or.inr ⟨rfl, ?_⟩) nofun hatEnd hpasses
    rw [← run.statementTokens_finish .codeBlock place] at hopen
    exact hopen

end CodeRun

namespace Grammar

variable {c : Surroundings} {bound : Nat} {r r' r₀ : Reader} {run : CodeRun} {ts : List Token}

/-- The reader of code is before a closing brace. -/
structure AtCloseBrace (r : Reader) : Prop where
  language : r.tokenizer.language = .csharp
  kind : r.tokenizer.peek?.map (·.kind) = some .closeBrace

theorem AtCloseBrace.switchTo (h : AtCloseBrace r) :
    Gives (switchTo .csharp) r fun _ r' => r' = r := by
  show ({ r with tokenizer := r.tokenizer.switch .csharp } : Reader) = r
  rw [Tokenizer.switch, if_pos h.language]

theorem switchTo_atEnd (h : r.AtEnd) (language : Language) :
    Gives (switchTo language) r fun _ r' => r'.AtEnd := h.switch language

theorem takeInto_stands (h : run.Stands r₀ r) :
    Gives (takeInto run) r fun run' r' => run'.Stands r₀ r' := by
  unfold takeInto
  rw [gives_bind]
  exact (bump_passes r).mono fun _ _ hts => h.add hts

theorem takeInto_kind (h : run.Stands r₀ r) {kind : TokenKind}
    (hkind : r.tokenizer.peek?.map (·.kind) = some kind) :
    Gives (takeInto run) r fun run' r' => ∃ t, t.kind = kind ∧ run' = run.add [t] ∧ run'.Stands r₀ r' := by
  unfold takeInto
  rw [gives_bind]
  refine (bump_kind hkind).mono ?_
  rintro ts r' ⟨t, rfl, ht, hpasses, -⟩
  exact ⟨t, ht, rfl, h.add hpasses⟩

/-! ## Markup between statements -/

theorem transitionNode_derives (h : Gathers r₀ ts r) :
    Gives (transitionNode ts) r fun trees r' => r' = r ∧ Derives false r₀ trees r := by
  unfold transitionNode
  split
  · next hnone =>
      rw [List.isEmpty_iff.mp hnone] at h
      exact ⟨rfl, h⟩
  · exact ⟨rfl, h.node rfl⟩

theorem elementInCode_derives (hc : c.Faithful) (h : Gathers r₀ ts r) :
    Gives (elementInCode c ts) r fun t r' => Derives false r₀ [t] r' ∧ t.kind? = some .markupBlock := by
  unfold elementInCode
  simp only [gives_bind, gives_here, gives_pure]
  refine (transitionNode_derives h).mono ?_
  rintro lead r₁ ⟨rfl, hlead⟩
  refine (switchTo_passes .html r₁).mono fun _ r₂ hswitch => ?_
  refine (hc .element r₂).mono fun trees r₃ htrees => ?_
  exact ⟨((hlead.pass hswitch).append htrees).simple rfl, rfl⟩

theorem lineInCode_derives (hc : c.Faithful) (r : Reader) :
    Gives (lineInCode c) r fun t r' => Derives false r [t] r' ∧ t.kind? = some .markupBlock := by
  unfold lineInCode
  simp only [gives_bind, gives_here, gives_nodeOver, gives_pure]
  refine (take_passes 2 r).mono fun lead r₁ hlead => ?_
  refine (switchTo_passes .html r₁).mono fun _ r₂ hswitch => ?_
  refine (hc .line r₂).mono fun trees r₃ htrees => ?_
  exact ⟨(((Gathers.node (.read hlead) rfl).pass hswitch).append htrees).simple rfl, rfl⟩

/-! ## Blocks -/

/-- How far a block of statements has been read behind the code before it: the braces of its own tokens are
    those that are open. -/
structure BlockAt (r₀ : Reader) (lead : List Token) (b : BlockState) (r : Reader) : Prop where
  stands : b.run.Stands r₀ r
  code : ∃ ts, b.run.code = lead ++ ts ∧ Nests .openBrace .closeBrace ts b.depth

/-- How a block of statements ends: with the source, or before the first brace that closes nothing in it. -/
structure BlockEnd (r₀ : Reader) (lead : List Token) (b : BlockState) (r : Reader) : Prop where
  block : BlockAt r₀ lead b r
  last : r.AtEnd ∨ (b.depth = 0 ∧ AtCloseBrace r)

variable {lead : List Token} {b : BlockState}

theorem BlockAt.push (h : BlockAt r₀ lead b r) {t : Tree} (ht : Derives false r [t] r') {kind : NodeKind}
    (hkind : t.kind? = some kind) (hother : kind ≠ .statementCode) (fresh : Bool) :
    BlockAt r₀ lead ⟨b.run.push t, b.depth, fresh⟩ r' := by
  obtain ⟨ts, hcode, hnests⟩ := h.code
  refine ⟨h.stands.push ht, ts, ?_, hnests⟩
  rw [CodeRun.code_push _ (fun heq => hother (Option.some.inj (hkind.symm.trans heq))), hcode]

/-- A turn that asks for another one keeps the block; the last one is at the end of the source or before a
    brace that closes nothing. -/
def BlockStep (r₀ : Reader) (lead : List Token) (t : Turn BlockState) (r : Reader) : Prop :=
  BlockAt r₀ lead t.value r ∧ ∀ b, t = .done b → r.AtEnd ∨ (b.depth = 0 ∧ AtCloseBrace r)

theorem BlockAt.again (h : BlockAt r₀ lead b r) : BlockStep r₀ lead (.again b) r :=
  ⟨h, fun _ hdone => nomatch hdone⟩

/-- The next token goes into the run as it is, and what is open behind it is known from its kind. -/
theorem takeInto_block (h : BlockAt r₀ lead b r) {kind : TokenKind} {f : CodeRun → BlockState} {depth : Nat}
    (hkind : r.tokenizer.peek?.map (·.kind) = some kind) (hf : ∀ run, (f run).run = run ∧ (f run).depth = depth)
    (hnext : ∀ (ts : List Token) (t : Token), t.kind = kind → Nests .openBrace .closeBrace ts b.depth →
      Nests .openBrace .closeBrace (ts ++ [t]) depth) :
    Gives (do return Turn.again (f (← takeInto b.run))) r (BlockStep r₀ lead) := by
  rw [gives_bind]
  refine (takeInto_kind h.stands hkind).mono ?_
  rintro run r' ⟨t, ht, rfl, hstands⟩
  obtain ⟨ts, hcode, hnests⟩ := h.code
  obtain ⟨hrun, hdepth⟩ := hf (b.run.add [t])
  refine BlockAt.again ⟨by rw [hrun]; exact hstands, ts ++ [t], ?_, ?_⟩
  · rw [hrun, CodeRun.code_add, hcode, List.append_assoc]
  · rw [hdepth]
    exact hnext ts t ht hnests

/-- What stands between statements is derived, and is none of their code. -/
theorem BlockNode.derives (hc : c.Faithful) {inner : Grammar Tree} (h : BlockNode c r inner) :
    Gives inner r fun t r' => Derives false r [t] r' ∧ ∃ kind, t.kind? = some kind ∧ kind ≠ .statementCode := by
  have hnode {g : Grammar Tree} (kind : NodeKind) (hother : kind ≠ .statementCode)
      (hg : Gives g r fun t r' => Derives false r [t] r' ∧ t.kind? = some kind) :
      Gives g r fun t r' => Derives false r [t] r' ∧ ∃ kind, t.kind? = some kind ∧ kind ≠ .statementCode :=
    hg.mono fun _ _ ⟨ht, hkind⟩ => ⟨ht, kind, hkind, hother⟩
  cases h with
  | comment => exact hnode .razorComment (by decide) (razorComment_derives false r)
  | element => exact hnode .markupBlock (by decide) (elementInCode_derives hc (Gathers.refl r))
  | line => exact hnode .markupBlock (by decide) (lineInCode_derives hc r)
  | marked =>
      refine hnode .markupBlock (by decide) ?_
      rw [gives_bind]
      exact (bump_passes r).mono fun ts r' hts => elementInCode_derives hc (.read hts)

/-- One step along a block of statements. -/
theorem blockTurn_at (hc : c.Faithful) (h : BlockAt r₀ lead b r) :
    Gives (blockTurn c b) r (BlockStep r₀ lead) := by
  refine gives_blockTurn (Gives.mono (P := fun _ r₁ => r.Passes [] r₁ ∧ r₁.tokenizer.language = .csharp)
    ⟨switchTo_passes .csharp r, switchTo_language .csharp r⟩ ?_)
  rintro _ r₁ ⟨hswitch, hlanguage⟩ g hmove
  have h : BlockAt r₀ lead b r₁ := ⟨h.stands.pass hswitch, h.code⟩
  cases hmove with
  | stop hend =>
      refine ⟨h, fun b' hb' => ?_⟩
      obtain rfl : b = b' := Turn.done.inj hb'
      exact hend.imp Option.map_eq_none_iff.mp fun ⟨hkind, hzero⟩ => ⟨hzero, hlanguage, hkind⟩
  | closes hkind hdepth =>
      -- this brace closes one of the block, not the block
      obtain ⟨depth, hdepth⟩ := Nat.exists_eq_succ_of_ne_zero hdepth
      refine takeInto_block h hkind (fun _ => ⟨rfl, rfl⟩) fun ts t ht hnests => ?_
      rw [hdepth] at hnests ⊢
      exact hnests.closes (by decide) ht
  | opens hkind =>
      exact takeInto_block h hkind (fun _ => ⟨rfl, rfl⟩) fun _ _ ht hnests => hnests.opens (by decide) ht
  | token fresh hkind hother =>
      refine takeInto_block h hkind (fun _ => ⟨rfl, rfl⟩) fun _ _ ht hnests => ?_
      exact hnests.other (ht ▸ hother.1) (ht ▸ hother.2)
  | node fresh hinner =>
      rw [gives_bind]
      refine (hinner.derives hc).mono ?_
      rintro t r₂ ⟨ht, kind, hkind, hother⟩
      exact (h.push ht hkind hother fresh).again

/-- The statements of a block are read up to the first brace that closes nothing in them, or with the
    source, which is reported. -/
theorem blockStatements_at (hc : c.Faithful) (hsound : c.Sound bound) (hr : r.left < bound)
    (h : run.Stands r₀ r) (hparsed : run.Parsed) :
    Gives (blockStatements c run) r fun run' r' => ∃ ts n, run'.code = run.code ++ ts ∧
      Nests .openBrace .closeBrace ts n ∧
      ((run'.Stands r₀ r' ∧ n = 0 ∧ AtCloseBrace r') ∨
        ∃ r₁, run'.Stands r₀ r₁ ∧ r₁.AtEnd ∧ r' = r₁.note [r₁.unended "code"]) := by
  unfold blockStatements
  rw [gives_bind]
  refine (gives_loop_until (P := BlockEnd r₀ run.code)
    (I := fun b r => BlockAt r₀ run.code b r ∧ b.run.Parsed ∧ r.left < bound)
    ?_ ⟨⟨h, [], (List.append_nil _).symm, NestsBy.nil⟩, hparsed, hr⟩).mono ?_
  · rintro b r' ⟨hb, hparsed, hr'⟩
    refine ((blockTurn_at hc hb).and (blockTurn_advances hsound b hr' hparsed)).mono ?_
    rintro (b' | b') r'' ⟨⟨hblock, hlast⟩, hadvances⟩
    · exact ⟨hblock, hlast b' rfl⟩
    · obtain ⟨-, hparsed', hless⟩ := hadvances
      exact ⟨⟨hblock, hparsed', by omega⟩, hless⟩
  · rintro b r' ⟨⟨hstands, ts, hcode, hnests⟩, hlast⟩
    rw [gives_bind, gives_peek?]
    rcases hlast with hatEnd | ⟨hzero, hbrace⟩
    · rw [show r'.tokenizer.peek? = none from hatEnd]
      exact ⟨ts, b.depth, hcode, hnests, Or.inr ⟨r', hstands, hatEnd, rfl⟩⟩
    · obtain ⟨t, ht, -⟩ := Option.map_eq_some_iff.mp hbrace.kind
      rw [ht]
      exact ⟨ts, b.depth, hcode, hnests, Or.inl ⟨hstands, hzero, hbrace⟩⟩

/-- The closing brace as a node of its own. -/
theorem closeBraceNode_delimiter (h : AtCloseBrace r) :
    Gives closeBraceNode r fun trees r' => ∃ closed, trees = [closed] ∧ closed.IsDelimiter .closeBrace ∧
      Derives false r [closed] r' := by
  unfold closeBraceNode
  rw [gives_bind]
  refine h.switchTo.mono ?_
  rintro _ r₁ rfl
  rw [gives_bind, gives_isAt, h.kind, beq_self_eq_true, if_pos rfl, gives_bind]
  refine (bump_kind h.kind).mono ?_
  rintro ts r₂ ⟨t, rfl, ht, hpasses, -⟩
  exact ⟨_, rfl, isDelimiter_overTokens ht, Gathers.node (.read hpasses) rfl⟩

theorem closeBraceNode_atEnd (h : r.AtEnd) :
    Gives closeBraceNode r fun trees r' => trees = [] ∧ r.Passes [] r' := by
  unfold closeBraceNode
  rw [gives_bind]
  refine ((switchTo_passes .csharp r).and (switchTo_atEnd h .csharp)).mono ?_
  rintro _ r₁ ⟨hpasses, hatEnd⟩
  rw [gives_bind, gives_isAt, show r₁.tokenizer.peek? = none from hatEnd]
  exact ⟨rfl, hpasses⟩

/-- The closing brace, if it is next. -/
theorem closeBraceNode_derives (r : Reader) :
    Gives closeBraceNode r fun trees r' => Derives false r trees r' ∧ BlockFree trees := by
  unfold closeBraceNode
  rw [gives_bind]
  refine (switchTo_passes .csharp r).mono fun _ r₁ hswitch => ?_
  rw [gives_bind, gives_isAt]
  split
  · rw [gives_bind]
    refine (bump_passes r₁).mono fun ts r₂ hts => ?_
    refine ⟨((Derives.refl false r).pass hswitch).append (Gathers.node (.read hts) rfl), ?_⟩
    intro t ht
    rw [List.mem_singleton.mp ht]
    nofun
  · exact ⟨(Derives.refl false r).pass hswitch, fun t ht => absurd ht List.not_mem_nil⟩

/-- A block of statements and what follows it: its closing brace, or the report of the one that is
    missing. -/
theorem codeBlock_closed (hc : c.Faithful) (hsound : c.Sound bound) (hr : r.left < bound) :
    Gives (codeBlockNode c) r fun block r₁ => Gives closeBraceNode r₁ fun trees r' =>
      block.kind? = some .codeBlock ∧
        ((∃ closed, trees = [closed] ∧ closed.IsDelimiter .closeBrace ∧
            Balanced .openBrace .closeBrace block.statementTokens ∧ Derives false r [block, closed] r') ∨
          (trees = [] ∧ ∃ r₂, Derives false r [block] r₂ ∧ r₂.AtEnd ∧
            (r₂.note [r₂.unended "code"]).Passes [] r')) := by
  have hempty : CodeRun.Stands r {} r := ⟨r, Derives.refl false r, .refl r⟩
  unfold codeBlockNode
  simp only [gives_bind, gives_here, gives_pure]
  refine (blockStatements_at hc hsound hr hempty allParsed_nil).mono ?_
  rintro run r₁ ⟨ts, n, hcode, hnests, hend⟩
  rw [show CodeRun.code {} = [] from rfl, List.nil_append] at hcode
  rcases hend with ⟨hstands, rfl, hbrace⟩ | ⟨r₂, hstands, hatEnd, rfl⟩
  · refine (closeBraceNode_delimiter hbrace).mono ?_
    rintro trees r' ⟨closed, rfl, hclosed, hderives⟩
    refine ⟨rfl, Or.inl ⟨closed, rfl, hclosed, ?_, ?_⟩⟩
    · rw [CodeRun.statementTokens_finish, hcode]
      exact hnests
    · exact (hstands.finish.simple rfl).append hderives
  · refine (closeBraceNode_atEnd (r := r₂.note [r₂.unended "code"]) hatEnd).mono ?_
    rintro trees r' ⟨rfl, hpasses⟩
    exact ⟨rfl, Or.inr ⟨rfl, r₂, hstands.finish.simple rfl, hatEnd, hpasses⟩⟩

theorem statementBlock_derives (hc : c.Faithful) (hsound : c.Sound bound) {transition : Tree}
    (h : Derives false r₀ [transition] r) (hnext : HasNext r) (hr : r.left < bound) :
    Gives (statementBlock c transition) r fun t r' => Derives false r₀ [t] r' := by
  unfold statementBlock
  simp only [gives_bind, gives_nodeOver, gives_pure]
  refine ((bump_passes r).and (bump_begins hnext .metaCode)).mono ?_
  rintro first r₁ ⟨hfirst, hbegins⟩
  have hr₁ := hfirst.left
  have hopened {place : Span} : Derives false r [overTokens .metaCode first place] r₁ :=
    Gathers.node (.read hfirst) rfl
  refine (codeBlock_closed hc hsound (r := r₁) (by omega)).mono fun block r₂ hclose => ?_
  refine hclose.mono ?_
  rintro trees r₃ ⟨hkind, ⟨closed, rfl, hclosed, hbalanced, hblock⟩ | ⟨rfl, r₄, hblock, hatEnd, hpasses⟩⟩
  · refine (h.append ((hopened.append hblock).closedBody ?_ rfl)).simple rfl
    exact ⟨fun heq => absurd (Option.some.inj heq) (by decide), closesBlocks_block hbalanced hclosed⟩
  · refine (h.append ((hopened.append hblock).openBlock ?_ ?_ hatEnd hpasses)).simple rfl
    · exact Or.inl ⟨rfl, [_], block, rfl, hkind, fun heq => absurd (Option.some.inj heq) (by decide), trivial⟩
    · exact fun _ => (hbegins _).append [block]

/-! ## Statements that a keyword starts -/

theorem takeTriviaInto_stands (h : run.Stands r₀ r) (acrossLines : Bool) :
    Gives (takeTriviaInto run acrossLines) r fun run' r' => run'.Stands r₀ r' := by
  unfold takeTriviaInto
  rw [gives_bind]
  exact (takeTrivia_passes acrossLines r).mono fun _ _ hts => h.add hts

theorem condition_stands (h : run.Stands r₀ r) :
    Gives (condition run) r fun run' r' => run'.Stands r₀ r' := by
  unfold condition
  rw [gives_bind]
  refine (takeTriviaInto_stands h true).mono fun run₁ r₁ hrun₁ => ?_
  rw [gives_bind, gives_isAt]
  split
  · rw [gives_bind]
    refine (takeBalanced_passes .openParen .closeParen r₁).mono ?_
    rintro ⟨ts, closed⟩ r₂ hts
    dsimp only
    split
    · simp only [gives_bind, gives_here, gives_report, gives_pure]
      exact (hrun₁.add hts).note rfl
    · exact hrun₁.add hts
  · exact hrun₁

theorem plainBodyTurn_stands {state : CodeRun × Nat} (h : state.1.Stands r₀ r) :
    Gives (plainBodyTurn state) r fun t r' => t.value.1.Stands r₀ r' := by
  obtain ⟨run, depth⟩ := state
  unfold plainBodyTurn
  rw [gives_bind, gives_kind?]
  split
  · exact h
  · rw [gives_bind]
    refine (takeInto_stands h).mono fun run' r' hrun' => ?_
    have hend (b : Bool) (n : Nat) :
        Gives (if b then pure (Turn.done (run', n)) else pure (Turn.again (run', n))) r'
          fun t r'' => t.value.1.Stands r₀ r'' := by
      split
      · exact hrun'
      · exact hrun'
    exact hend _ _

/-- The body of a statement: a run goes on behind it, or ends with the source inside of its block. -/
theorem body_goes (hc : c.Faithful) (hsound : c.Sound bound) (h : run.Stands r₀ r) (hparsed : run.Parsed)
    (hr : r.left < bound) : Gives (body c run) r fun run' r' => run'.Goes r₀ r' := by
  unfold body
  rw [gives_bind]
  refine (switchTo_passes .csharp r).mono fun _ r₁ hswitch => ?_
  rw [gives_bind]
  refine ((takeTriviaInto_stands (h.pass hswitch) true).and (takeTriviaInto_extends run true r₁)).mono ?_
  rintro run₂ r₂ ⟨hrun₂, hextends₂⟩
  have hr₂ := hextends₂.left
  have hr₁ := hswitch.left
  rw [gives_bind, gives_isAt]
  split
  · next hopen =>
      rw [gives_bind]
      refine ((takeInto_kind hrun₂ (beq_iff_eq.mp hopen)).and (takeInto_extends run₂ r₂)).mono ?_
      rintro run₃ r₃ ⟨⟨t, ht, hrun₃, hstands₃⟩, hextends₃, -⟩
      have hr₃ := hextends₃.left
      rw [gives_bind]
      refine (blockStatements_at hc hsound (by omega) hstands₃
        (hextends₃.2 (hextends₂.2 hparsed))).mono ?_
      rintro run₄ r₄ ⟨ts, n, hcode, hnests, hend⟩
      rw [gives_bind]
      -- the statements end before the brace that closes the body, or with the source
      rcases hend with ⟨hstands, rfl, hbrace⟩ | ⟨r₅, hstands, hatEnd, rfl⟩
      · refine hbrace.switchTo.mono ?_
        rintro _ r₅ rfl
        rw [gives_bind, gives_isAt, hbrace.kind, beq_self_eq_true, if_pos rfl]
        exact (takeInto_stands hstands).mono fun _ _ hrun => Or.inl hrun
      · refine ((switchTo_passes .csharp _).and (switchTo_atEnd (r := r₅.note [r₅.unended "code"]) hatEnd _)).mono ?_
        rintro _ r₆ ⟨hpasses, hatEnd₆⟩
        rw [gives_bind, gives_isAt, show r₆.tokenizer.peek? = none from hatEnd₆, Option.map_none,
          if_neg (by decide), gives_pure]
        refine Or.inr ⟨r₅, hstands, ⟨run₂.code, t, ts, n, ?_, ht, hnests⟩, hatEnd, hpasses, hatEnd₆⟩
        rw [hcode, hrun₃, CodeRun.code_add, List.append_assoc, List.singleton_append]
  · rw [gives_bind]
    exact (gives_loop_keeps (I := fun (state : CodeRun × Nat) r => state.1.Stands r₀ r)
      (fun _ r' h => h.pass (passes_stalled r')) (fun _ _ => plainBodyTurn_stands) hrun₂).mono
      fun _ _ hrun => Or.inl hrun

/-- Behind the end of the source no statement goes on. -/
theorem continuation_goes (h : run.Goes r₀ r) (words : List Text) :
    Gives (continuation run words) r fun p r' => p.1.Goes r₀ r' ∧ (p.2.isSome = true → p.1.Stands r₀ r') := by
  unfold continuation
  rw [gives_bind]
  rcases h with hstands | hends
  · refine (switchTo_passes .csharp r).mono fun _ r₁ hswitch => ?_
    have hstands := hstands.pass hswitch
    rw [gives_bind, gives_placeBehind, gives_bind, gives_peekNth?]
    split
    · split
      · rw [gives_bind]
        refine (take_passes _ r₁).mono fun ts r₂ hts => ?_
        exact ⟨Or.inl (hstands.add hts), fun _ => hstands.add hts⟩
      · exact ⟨Or.inl hstands, fun _ => hstands⟩
    · exact ⟨Or.inl hstands, fun _ => hstands⟩
  · have hatEnd : r.AtEnd := hends.choose_spec.2.2.2.2
    refine ((switchTo_passes .csharp r).and (switchTo_atEnd hatEnd .csharp)).mono ?_
    rintro _ r₁ ⟨hpasses, hatEnd₁⟩
    rw [gives_bind, gives_placeBehind, gives_bind, gives_peekNth?, hatEnd₁.peekNth]
    exact ⟨Or.inr (hends.pass hpasses hatEnd₁), fun h => absurd h Bool.false_ne_true⟩

theorem body_going (hc : c.Faithful) (hsound : c.Sound bound) (h : run.Stands r₀ r) (hparsed : run.Parsed)
    (hr : r.left < bound) : Gives (body c run) r (CodeRun.Going r₀ bound) := by
  refine ((body_goes hc hsound h hparsed hr).and (body_extends hsound run hr hparsed)).mono ?_
  rintro run' r' ⟨hgoes, hextends⟩
  exact ⟨hgoes, hextends.2 hparsed, Nat.lt_of_le_of_lt hextends.left hr⟩

/-- The condition of a statement and its body. -/
theorem condition_body_going (hc : c.Faithful) (hsound : c.Sound bound) (h : run.Stands r₀ r)
    (hparsed : run.Parsed) (hr : r.left < bound) :
    Gives (condition run) r fun run' r' => Gives (body c run') r' (CodeRun.Going r₀ bound) := by
  refine ((condition_stands h).and (condition_extends run r)).mono ?_
  rintro run' r' ⟨hstands, hextends⟩
  exact body_going hc hsound hstands (hextends.2 hparsed) (Nat.lt_of_le_of_lt hextends.left hr)

theorem continuation_going (h : run.Going r₀ bound r) (words : List Text) :
    Gives (continuation run words) r fun p r' =>
      p.1.Going r₀ bound r' ∧ (p.2.isSome = true → p.1.Stands r₀ r') := by
  refine ((continuation_goes h.goes words).and (continuation_extends run words r)).mono ?_
  rintro p r' ⟨⟨hgoes, hstands⟩, hextends, -⟩
  exact ⟨⟨hgoes, hextends.2 h.parsed, Nat.lt_of_le_of_lt hextends.left h.left⟩, hstands⟩

theorem handlerTurn_going (hc : c.Faithful) (hsound : c.Sound bound) (h : run.Going r₀ bound r) :
    Gives (handlerTurn c run) r fun t r' => t.value.Going r₀ bound r' := by
  unfold handlerTurn
  rw [gives_bind]
  refine (continuation_going h _).mono ?_
  rintro ⟨run₁, word⟩ r₁ ⟨hgoing, hstands⟩
  cases word with
  | none => exact hgoing
  | some word =>
      have hstands : run₁.Stands r₀ r₁ := hstands rfl
      dsimp only
      split
      · rw [gives_bind]
        exact body_going hc hsound hstands hgoing.parsed hgoing.left
      · rw [gives_bind]
        exact condition_body_going hc hsound hstands hgoing.parsed hgoing.left

theorem alternativeTurn_going (hc : c.Faithful) (hsound : c.Sound bound) (h : run.Going r₀ bound r) :
    Gives (alternativeTurn c run) r fun t r' => t.value.Going r₀ bound r' := by
  unfold alternativeTurn
  rw [gives_bind]
  refine (continuation_going h _).mono ?_
  rintro ⟨run₁, word⟩ r₁ ⟨hgoing, hstands⟩
  cases word with
  | none => exact hgoing
  | some word =>
      have hstands : run₁.Stands r₀ r₁ := hstands rfl
      dsimp only
      rw [gives_bind, gives_placeBehind, gives_bind, gives_peekNth?]
      split
      · rw [gives_bind]
        refine ((takeTriviaInto_stands hstands true).and (takeTriviaInto_extends run₁ true r₁)).mono ?_
        rintro run₂ r₂ ⟨hstands₂, hextends₂⟩
        rw [gives_bind]
        refine ((takeInto_stands hstands₂).and (takeInto_extends run₂ r₂)).mono ?_
        rintro run₃ r₃ ⟨hstands₃, hextends₃, -⟩
        have hextends := hextends₂.trans hextends₃
        rw [gives_bind]
        exact condition_body_going hc hsound hstands₃ (hextends.2 hgoing.parsed)
          (Nat.lt_of_le_of_lt hextends.left hgoing.left)
      · rw [gives_bind]
        exact body_going hc hsound hstands hgoing.parsed hgoing.left

/-- A statement that a keyword starts is a node over all that belongs to it. -/
theorem keywordStatement_derives (hc : c.Faithful) (hsound : c.Sound bound) {transition : Tree}
    (h : Derives false r₀ [transition] r) (hparsed : transition.Parsed) (hr : r.left < bound)
    (inside : Bool) : Gives (keywordStatement c transition) r fun t r' => Derives inside r₀ [t] r' := by
  have hstart : CodeRun.Stands r₀ { trees := [transition] } r := ⟨r, h, Gathers.refl r⟩
  unfold keywordStatement
  rw [gives_bind, gives_peek?, gives_bind]
  refine ((takeInto_stands hstart).and (takeInto_extends _ r)).mono ?_
  rintro run₁ r₁ ⟨hstands₁, hextends₁, -⟩
  have hparsed₁ : run₁.Parsed := hextends₁.2 (.single hparsed)
  have hr₁ := Nat.lt_of_le_of_lt hextends₁.left hr
  -- a run is made into the node whatever has led to it
  have hnode {r' : Reader} {run : CodeRun} (hrun : run.Going r₀ bound r') :
      Gives (pure (Tree.spanning .codeBlock run.finish transition.span)) r'
        fun t r'' => Derives inside r₀ [t] r'' := hrun.goes.derives inside _
  split
  · simp only [gives_bind]
    refine (body_going hc hsound hstands₁ hparsed₁ hr₁).mono fun run₂ r₂ hbody => ?_
    refine (continuation_going hbody _).mono ?_
    rintro ⟨run₃, word⟩ r₃ ⟨hgoing, hstands⟩
    cases word with
    | none => exact hnode hgoing
    | some word =>
        have hstands : run₃.Stands r₀ r₃ := hstands rfl
        simp only [gives_bind, gives_isAt]
        refine ((condition_stands hstands).and (condition_extends run₃ r₃)).mono ?_
        rintro run₄ r₄ ⟨hstands₄, hextends₄⟩
        refine ((takeTriviaInto_stands hstands₄ false).and (takeTriviaInto_extends run₄ false r₄)).mono ?_
        rintro run₅ r₅ ⟨hstands₅, hextends₅⟩
        have hextends := hextends₄.trans hextends₅
        have hgoing₅ : run₅.Going r₀ bound r₅ := ⟨Or.inl hstands₅, hextends.2 hgoing.parsed,
          Nat.lt_of_le_of_lt hextends.left hgoing.left⟩
        split
        · rw [gives_bind]
          refine ((takeInto_stands hstands₅).and (takeInto_extends run₅ r₅)).mono ?_
          rintro run₆ r₆ ⟨hstands₆, hextends₆, -⟩
          exact hnode ⟨Or.inl hstands₆, hextends₆.2 hgoing₅.parsed,
            Nat.lt_of_le_of_lt hextends₆.left hgoing₅.left⟩
        · exact hnode hgoing₅
  · split
    · simp only [gives_bind]
      refine (body_going hc hsound hstands₁ hparsed₁ hr₁).mono fun run₂ r₂ hbody => ?_
      exact (gives_loop_keeps (I := CodeRun.Going r₀ bound) (fun _ _ h => h.stalled)
        (fun _ _ => handlerTurn_going hc hsound) hbody).mono fun _ _ hrun => hnode hrun
    · simp only [gives_bind]
      refine (condition_body_going hc hsound hstands₁ hparsed₁ hr₁).mono fun run₂ r₂ hrun₂ => ?_
      refine hrun₂.mono fun run₃ r₃ hbody => ?_
      split
      · exact (gives_loop_keeps (I := CodeRun.Going r₀ bound) (fun _ _ h => h.stalled)
          (fun _ _ => alternativeTurn_going hc hsound) hbody).mono fun _ _ hrun => hnode hrun
      · exact hnode hbody

end Grammar

end RazorLang
