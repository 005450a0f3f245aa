import RazorLang.Proofs.Grammar.Markup
import RazorLang.Proofs.Token.Lossless
import RazorLang.Proofs.Tree.Tiling

/-!
# Where the rules of code put their trees

A rule `Builds` trees that lie between the place of the reader before it and the place behind it, one behind
the other (`Tree.Lies`). What a rule makes of a node is said once, by `Admits`: something holds of all nodes
of a document if it holds of contiguous nodes, of start tags as their rule reads them, and of closed explicit
expressions without code, whose piece of code is the one tree that is put elsewhere
(`explicitExpression_builds`).
-/

namespace RazorLang.Grammar

open Reader RazorLang.Tree

variable {α β : Type} {Q : Tree → Prop} {n l m k : Nat} {ts : List Token} {trees : List Tree}

/-! ## Rules -/

/-- With at most `n` left to read, a rule makes something of what is between an offset and the one that it
    leads to. -/
def Builds (n : Nat) (g : Grammar α) (l : Nat) (P : α → Nat → Prop) : Prop :=
  ∀ r, r.left ≤ n → r.tokenizer.place.offset = l →
    Gives g r fun a r' => P a r'.tokenizer.place.offset ∧ r'.left ≤ n

section Rules

variable {g : Grammar α} {P : α → Nat → Prop} {P' : β → Nat → Prop}

theorem builds_pure {a : α} (h : P a l) : Builds n (pure a) l P := by
  rintro r hr rfl
  exact ⟨h, hr⟩

theorem Builds.bind {f : α → Grammar β} (h : Builds n g l P) (hf : ∀ a m, P a m → Builds n (f a) m P') :
    Builds n (g >>= f) l P' := by
  rintro r hr hl
  obtain ⟨ha, hr'⟩ := h r hr hl
  exact hf _ _ ha _ hr' rfl

/-- Looking ahead changes nothing. -/
theorem builds_look {f : α → Grammar β} (hlook : Looks g) (hf : ∀ a, Builds n (f a) l P') :
    Builds n (g >>= f) l P' := by
  intro r hr hl
  refine hf _ _ ?_ ?_
  · rw [show (g r).2 = r from hlook r]
    exact hr
  · rw [show (g r).2 = r from hlook r]
    exact hl

/-- Neither do rules that read no token. -/
theorem builds_silent {f : α → Grammar β} (hg : ∀ r, Gives g r fun _ r' => r.Reads [] r')
    (hf : ∀ a, Builds n (f a) l P') : Builds n (g >>= f) l P' := by
  rintro r hr rfl
  have hreads := hg r
  exact hf _ _ (Nat.le_trans hreads.left hr) hreads.offset_eq

theorem builds_here {f : Span → Grammar β} (hf : ∀ place, place.start.offset = l → Builds n (f place) l P') :
    Builds n (here >>= f) l P' := by
  intro r hr hl
  exact hf _ hl r hr hl

theorem builds_ite {c : Prop} [Decidable c] {g' : Grammar α} (h : c → Builds n g l P)
    (h' : ¬ c → Builds n g' l P) : Builds n (if c then g else g') l P := by
  split
  · next hc => exact h hc
  · next hc => exact h' hc

/-- A repetition whose turns keep something while they ask for another turn, and lead to something. -/
theorem builds_loop_end {turn : α → Grammar (Turn α)} {a : α} {I : α → Nat → Prop}
    (hturn : ∀ a l, I a l → Builds n (turn a) l fun t m =>
      match t with
      | .done a => P a m
      | .again a => I a m)
    (hstop : ∀ a m, I a m → P a m) (ha : I a l) : Builds n (loop turn a) l P := by
  rintro r hr rfl
  refine gives_loop_of_proceeds (I := fun a r => I a r.tokenizer.place.offset ∧ r.left ≤ n)
    (P := fun _ _ a r => P a r.tokenizer.place.offset ∧ r.left ≤ n) ?_ ⟨ha, hr⟩
  rintro a r ⟨ha, hr⟩
  refine (hturn a _ ha r hr rfl).mono ?_
  rintro (a' | a') r' ⟨hvalue, hr'⟩
  · exact ⟨hvalue, hr'⟩
  · rw [Turn.Proceeds]
    split
    · exact ⟨⟨hvalue, hr'⟩, fun _ _ hend => hend⟩
    · exact ⟨hstop a' _ hvalue, hr'⟩

theorem builds_loop {turn : α → Grammar (Turn α)} {a : α}
    (hturn : ∀ a l, P a l → Builds n (turn a) l fun t m => P t.value m) (ha : P a l) :
    Builds n (loop turn a) l P := by
  rintro r hr rfl
  refine gives_loop_keeps (I := fun a r => P a r.tokenizer.place.offset ∧ r.left ≤ n) (fun _ _ h => h)
    ?_ ⟨ha, hr⟩
  rintro a r ⟨ha, hr⟩
  exact hturn a _ ha r hr rfl

/-- Tokens that a rule reads. -/
theorem builds_tokens {f : α → List Token} (hg : ∀ r, Gives g r fun a r' => r.Reads (f a) r') :
    Builds n g l fun a m => TokensLie l (f a) m := by
  rintro r hr rfl
  have hreads := hg r
  exact ⟨tokensLie_of_run hreads.run, Nat.le_trans hreads.left hr⟩

/-- Tokens that a rule reads behind others. -/
theorem builds_adds {g : Grammar (List Token)} (hg : ∀ r, Gives g r fun us r' => r.Adds ts us r')
    (h : TokensLie l ts m) : Builds n g m fun us k => TokensLie l us k := by
  rintro r hr rfl
  have hadds := hg r
  refine ⟨?_, Nat.le_trans hadds.left hr⟩
  obtain ⟨us, heq, hreads⟩ := hadds
  rw [heq]
  exact h.append (tokensLie_of_run hreads.run)

theorem bump_builds : Builds n bump l fun ts m => TokensLie l ts m :=
  builds_tokens fun r => (bump_reads r).mono fun _ _ h => h.1

/-- A token that is not the body of a comment is not empty. -/
theorem bump_offset_lt {r : Reader} {kind : TokenKind} (h : r.tokenizer.peek?.map (·.kind) = some kind)
    (hkind : kind ≠ .commentBody) :
    Gives bump r fun _ r' => r.tokenizer.place.offset < r'.tokenizer.place.offset := by
  obtain ⟨t, ht, hk⟩ := Option.map_eq_some_iff.mp h
  obtain ⟨⟨t, s⟩, hnext, rfl⟩ := Option.map_eq_some_iff.mp ht
  have hne := Tokenizer.next?_content_ne_nil hnext (hk ▸ hkind)
  have hpos := Text.size_pos_of_ne_nil hne
  have hoffset := (Tokenizer.next?_run hnext).1.offset
  rw [contentOf_cons, contentOf_nil, List.append_nil] at hoffset
  unfold Gives
  rw [bump_eq hnext]
  show _ < s.place.offset
  omega

theorem takeBalanced_builds (opener closer : TokenKind) :
    Builds n (takeBalanced opener closer) l fun taken m => TokensLie l taken.1 m :=
  builds_tokens fun r => (takeBalanced_reads opener closer r).mono fun _ _ h => h.1

theorem take_builds (count : Nat) : Builds n (take count) l fun ts m => TokensLie l ts m :=
  builds_tokens fun r => (take_reads count r).mono fun _ _ h => h.1

end Rules

/-! ## Nodes -/

/-- The reader of markup is before the `<` and the name of a tag. -/
structure AtTagName (r : Reader) : Prop where
  language : r.tokenizer.language = .html
  angle : r.tokenizer.peek?.map (·.kind) = some .openAngle
  name : (r.tokenizer.peekNth? 1).map (·.kind) = some .text

/-- A start tag as its rule reads it. -/
def IsStartTag (t : Tree) : Prop :=
  ∃ c textTag r name closing, Surroundings.Sound c r.left ∧ AtTagName r ∧
    (startTag c textTag r).1 = .opening name t closing

/-- What holds of all nodes that the grammar builds, since it holds of contiguous nodes and of those that
    are not. -/
structure Admits (Q : Tree → Prop) : Prop where
  node : ∀ t : Tree, t.IsContiguous → ¬ t.IsHollow → t.kind? ≠ some .startTag → Q t
  startTag : ∀ t : Tree, t.IsContiguous → ¬ t.IsHollow → IsStartTag t → Q t
  hollow : ∀ t : Tree, t.IsDisplaced → t.IsHollow → Q t

section Nodes

variable {kind : NodeKind} {place : Span} {label : Option Label}

/-- The kinds of nodes that are always put where they belong. -/
def IsPlaced (kind : NodeKind) : Prop := kind ≠ .startTag ∧ kind ≠ .explicitExpression

instance (kind : NodeKind) : Decidable (IsPlaced kind) := inferInstanceAs (Decidable (_ ∧ _))

theorem Admits.spanning (hQ : Admits Q) (hkind : IsPlaced kind) (h : Lies Q l trees m)
    (hplace : trees = [] → place.start.offset = l) :
    Lies Q l [Tree.spanning kind trees place label] m := by
  refine h.spanning hplace (hQ.node _ (h.tiles.isContiguous_spanning hplace) ?_ ?_)
  · exact fun hhollow => hkind.2 (Option.some.inj hhollow.kind)
  · exact fun htag => hkind.1 (Option.some.inj htag)

/-- A node over at least one tree. -/
theorem Admits.spanning_cons (hQ : Admits Q) (hkind : IsPlaced kind) {t : Tree}
    (h : Lies Q l (t :: trees) m) : Lies Q l [Tree.spanning kind (t :: trees) place label] m :=
  hQ.spanning hkind h fun hnil => absurd hnil (List.cons_ne_nil t trees)

/-- A node over at least one token. -/
theorem Admits.overSome (hQ : Admits Q) (hkind : IsPlaced kind) (hsome : ¬ ts.isEmpty = true)
    (h : Lies Q l (ts.map .token) m) : Lies Q l [Tree.overTokens kind ts place] m :=
  hQ.spanning hkind h fun hnil => absurd (List.isEmpty_iff.mpr (List.map_eq_nil_iff.mp hnil)) hsome

/-- A node over tokens; over none, it stands behind where they would be. -/
theorem Admits.overTokens (hQ : Admits Q) (hkind : IsPlaced kind) (h : TokensLie l ts m)
    (hplace : place.start.offset = m) : Lies Q l [Tree.overTokens kind ts place] m := by
  refine hQ.spanning hkind h.lies fun hnil => ?_
  rw [TokensLie, hnil] at h
  exact hplace.trans h.symm

/-- An expression that is not hollow. -/
theorem Admits.expression (hQ : Admits Q) {t : Tree} (h : Lies Q l (t :: trees) m)
    (hfull : ¬ (Tree.spanning .explicitExpression (t :: trees) place label).IsHollow) :
    Lies Q l [Tree.spanning .explicitExpression (t :: trees) place label] m :=
  have hplace : t :: trees = [] → place.start.offset = l := fun hnil => absurd hnil (List.cons_ne_nil t trees)
  h.spanning hplace (hQ.node _ (h.tiles.isContiguous_spanning hplace) hfull
    fun htag => nomatch Option.some.inj htag)

/-- An expression that is hollow. -/
theorem Admits.displaced (hQ : Admits Q) {transition opened closed : Tree} {start : Span}
    (h : Lies Q l [transition, opened, closed] m) (hclosed : 0 < closed.span.length)
    (hplace : place.start.offset = m) :
    Lies Q l [Tree.spanning .explicitExpression
      [transition, opened, Tree.overTokens .expressionCode [] place, closed] start] m := by
  have hempty : Lies Q m [Tree.overTokens .expressionCode [] place] m :=
    hQ.overTokens (by decide) tokensLie_nil hplace
  refine lies_single_node h.tiles.spanning_around (hQ.hollow _ ?_ ?_) ?_
  · exact h.tiles.isDisplaced_spanning hclosed rfl hplace
  · exact ⟨transition, opened, _, closed, rfl, rfl, rfl, rfl⟩
  · obtain ⟨_, hbefore, hbehind⟩ := lies_append.mp (show Lies Q l ([transition, opened] ++ [closed]) m from h)
    have hall : ∀ n ∈ nodesAll ([transition, opened] ++ ([Tree.overTokens .expressionCode [] place] ++
        [closed])), Q n := by
      rw [nodesAll_append, nodesAll_append, List.forall_mem_append, List.forall_mem_append]
      exact ⟨hbefore.nodes, hempty.nodes, hbehind.nodes⟩
    exact hall

theorem nodeOver_builds (hQ : Admits Q) (hkind : IsPlaced kind) (h : TokensLie l ts m) :
    Builds n (nodeOver kind ts) m fun t k => Lies Q l [t] k := by
  exact builds_here fun place hplace => builds_pure (hQ.overTokens hkind h hplace)

/-- The node over some tokens stands where the reader is if there are none. -/
theorem nodeOver_bind {f : Tree → Grammar α} {P : α → Nat → Prop}
    (hf : ∀ place : Span, place.start.offset = l → Builds n (f (Tree.overTokens kind ts place)) l P) :
    Builds n (nodeOver kind ts >>= f) l P := fun r hr hl => hf _ hl r hr hl

theorem razorComment_builds (hQ : Admits Q) : Builds n razorComment l fun t m => Lies Q l [t] m := by
  refine Builds.bind (P := fun s m => TokensLie l s.1 m) (builds_loop ?_ tokensLie_nil)
    fun s m hs => nodeOver_builds hQ (by decide) hs
  rintro ⟨ts, transitions⟩ m hts
  refine builds_look (fun _ => rfl) fun kind => ?_
  cases kind with
  | none => exact builds_pure hts
  | some kind =>
      refine builds_ite (fun _ => builds_pure hts) fun _ => bump_builds.bind fun taken k htaken => ?_
      exact builds_pure (TokensLie.append hts htaken)

end Nodes

/-! ## Expressions -/

variable {transition : Tree} {start : Span}

theorem implicitExpression_builds (hQ : Admits Q) (h : Lies Q l [transition] m) :
    Builds n (implicitExpression transition) m fun t k => Lies Q l [t] k := by
  refine (builds_tokens awaitWord_reads).bind fun lead i hlead => bump_builds.bind fun first j hfirst => ?_
  refine (builds_adds (gives_loop_collects (implicitTurn_collects _) _)
    (hlead.append hfirst)).bind fun ts k hts => ?_
  refine (nodeOver_builds hQ (by decide) hts).bind fun code k hcode => builds_pure ?_
  exact hQ.spanning_cons (by decide) (h.cons hcode)

/-- The tokens of an explicit expression, and those of its parenthesis behind them. -/
theorem explicitLoop_builds :
    Builds n (loop explicitTurn ([], 0, [])) l fun s m => ∃ k, TokensLie l s.1 k ∧
      TokensLie k s.2.2 m ∧ (s.2.2 ≠ [] → k < m) := by
  refine builds_loop_end (I := fun s m => s.2.2 = [] ∧ TokensLie l s.1 m) ?_ ?_ ⟨rfl, tokensLie_nil⟩
  · rintro ⟨ts, depth, closing⟩ m ⟨hclosing, hts⟩
    dsimp only at hclosing hts
    have hagain (depth : Nat) : Builds n (do return Turn.again (ts ++ (← bump), depth, [])) m
        fun (t : Turn (List Token × Nat × List Token)) k =>
          match t with
          | .done s => ∃ i, TokensLie l s.1 i ∧ TokensLie i s.2.2 k ∧ (s.2.2 ≠ [] → i < k)
          | .again s => s.2.2 = [] ∧ TokensLie l s.1 k :=
      bump_builds.bind fun taken k htaken => builds_pure ⟨rfl, hts.append htaken⟩
    unfold explicitTurn
    intro r hr hl
    rw [gives_bind, gives_kind?]
    split
    · exact ⟨⟨m, hl ▸ hts, hl ▸ tokensLie_nil, fun h => absurd rfl h⟩, hr⟩
    · next hkind =>
        split
        · -- the parenthesis that closes the expression is not empty
          have hlt := bump_offset_lt hkind (by decide)
          obtain ⟨htokens, hr'⟩ := bump_builds r hr hl
          rw [gives_bind]
          exact ⟨⟨m, hts, htokens, fun _ => hl ▸ hlt⟩, hr'⟩
        · exact hagain _ r hr hl
    · exact hagain _ r hr hl
    · exact hagain _ r hr hl
  · rintro ⟨ts, depth, closing⟩ m ⟨rfl, hts⟩
    exact ⟨m, hts, tokensLie_nil, fun h => absurd rfl h⟩

theorem explicitExpression_builds (hQ : Admits Q) (h : Lies Q l [transition] m) :
    Builds n (explicitExpression transition) m fun t k => Lies Q l [t] k := by
  refine bump_builds.bind fun first i hfirst => ?_
  refine (nodeOver_builds hQ (by decide) hfirst).bind fun opened i hopened => ?_
  refine explicitLoop_builds.bind ?_
  rintro ⟨ts, depth, closing⟩ j ⟨k, hts, hclosing, hlt⟩
  dsimp only at hts hclosing hlt ⊢
  have hbefore := h.cons hopened
  refine nodeOver_bind fun place hplace => ?_
  refine builds_ite (fun hnone => ?_) fun hsome => ?_
  · rw [List.isEmpty_iff.mp hnone] at hclosing
    obtain rfl : k = j := hclosing
    have hcode : Lies Q i [Tree.overTokens .expressionCode ts place] k :=
      hQ.overTokens (by decide) hts hplace
    refine builds_silent (report_reads _ _) fun _ => builds_pure ?_
    refine hQ.expression (hbefore.append hcode) ?_
    rintro ⟨_, _, _, _, -, hchildren, -⟩
    exact nomatch (congrArg List.length hchildren : 3 = 4)
  · have hne : closing ≠ [] := fun hnil => hsome (List.isEmpty_iff.mpr hnil)
    refine nodeOver_bind fun place' hplace' => builds_pure ?_
    have hclosed : Lies Q k [Tree.overTokens .metaCode closing place'] j :=
      hQ.overTokens (by decide) hclosing hplace'
    generalize Tree.overTokens .metaCode closing place' = closed at hclosed
    cases ts with
    | nil =>
        -- the code is empty, and the reader is already behind the parenthesis
        obtain rfl : i = k := hts
        have hfourth : 0 < closed.span.length := by
          obtain ⟨hstart, hstop⟩ := tiles_single.mp hclosed.tiles
          have := hlt hne
          rw [Span.stop] at hstop
          omega
        exact hQ.displaced (hbefore.append hclosed) hfourth hplace
    | cons t ts =>
        have hcode : Lies Q i [Tree.overTokens .expressionCode (t :: ts) place] k :=
          hQ.spanning_cons (by decide) hts.lies
        refine hQ.expression ((hbefore.append hcode).append hclosed) ?_
        rintro ⟨_, _, code, _, -, hchildren, -, hempty⟩
        obtain ⟨-, -, hcode, -⟩ := hchildren
        exact absurd hempty (List.cons_ne_nil _ _)

end RazorLang.Grammar

namespace RazorLang

open RazorLang.Tree RazorLang.Grammar

variable {Q : Tree → Prop} {n l m k : Nat} {ts : List Token} {t : Tree}

/-! ## Statements -/

/-- The surroundings of code build markup where the reader is, with at most `n` left to read. -/
def Surroundings.Builds (Q : Tree → Prop) (n : Nat) (c : Surroundings) : Prop :=
  ∀ scope l, Grammar.Builds n (c.markup scope) l fun trees m => Lies Q l trees m

namespace CodeRun

variable {run : CodeRun}

/-- The trees of a run of code lie one behind the other, and the piece being read behind them. -/
def IsAt (Q : Tree → Prop) (l : Nat) (run : CodeRun) (m : Nat) : Prop :=
  Lies Q l (run.trees ++ run.pending.map .token) m

theorem isAt_start : IsAt Q l {} l := lies_nil

theorem IsAt.add (h : run.IsAt Q l m) (hts : TokensLie m ts k) : (run.add ts).IsAt Q l k := by
  unfold IsAt CodeRun.add
  rw [List.map_append, ← List.append_assoc]
  exact h.append hts.lies

theorem IsAt.flush (hQ : Admits Q) (h : run.IsAt Q l m) : run.flush.IsAt Q l m := by
  unfold CodeRun.flush
  split
  · exact h
  · next hsome =>
      obtain ⟨k, htrees, hpending⟩ := lies_append.mp h
      unfold IsAt
      rw [List.map_nil, List.append_nil]
      exact htrees.append (hQ.overSome (by decide) hsome hpending)

theorem IsAt.finish (hQ : Admits Q) (h : run.IsAt Q l m) : Lies Q l run.finish m := by
  have hflush := h.flush hQ
  unfold IsAt at hflush
  rw [run.pending_flush, List.map_nil, List.append_nil] at hflush
  exact hflush

theorem IsAt.push (hQ : Admits Q) (h : run.IsAt Q l m) (ht : Lies Q m [t] k) :
    (run.push t).IsAt Q l k := by
  show Lies Q l (run.flush.trees ++ [t] ++ run.flush.pending.map .token) k
  rw [run.pending_flush, List.map_nil, List.append_nil]
  exact (h.finish hQ).append ht

end CodeRun

namespace Grammar

variable {c : Surroundings} {run : CodeRun} {transition : Tree} {trees : List Tree}

theorem takeInto_builds (h : run.IsAt Q l m) : Builds n (takeInto run) m fun run k => run.IsAt Q l k :=
  bump_builds.bind fun _ _ htaken => builds_pure (h.add htaken)

theorem transitionNode_builds (hQ : Admits Q) (h : TokensLie l ts m) :
    Builds n (transitionNode ts) m fun trees k => Lies Q l trees k ∧ (trees = [] → m = l) := by
  refine builds_ite (fun hnone => builds_pure ?_) fun _ => ?_
  · rw [List.isEmpty_iff.mp hnone] at h
    obtain rfl : l = m := h
    exact ⟨lies_nil, fun _ => rfl⟩
  · refine (nodeOver_builds hQ (by decide) h).bind fun node _ hnode => builds_pure ⟨hnode, fun hnil => ?_⟩
    exact absurd hnil (List.cons_ne_nil node [])

theorem elementInCode_builds (hQ : Admits Q) (hc : c.Builds Q n) (h : TokensLie l ts m) :
    Builds n (elementInCode c ts) m fun t k => Lies Q l [t] k := by
  refine builds_here fun place hplace => (transitionNode_builds hQ h).bind ?_
  rintro lead i ⟨hlead, hnone⟩
  refine builds_silent (switchTo_reads _) fun _ => (hc .element i).bind fun inner k hinner => ?_
  refine builds_pure (hQ.spanning (by decide) (hlead.append hinner) fun hnil => ?_)
  exact hplace.trans (hnone (List.append_eq_nil_iff.mp hnil).1)

theorem lineInCode_builds (hQ : Admits Q) (hc : c.Builds Q n) :
    Builds n (lineInCode c) l fun t m => Lies Q l [t] m := by
  refine builds_here fun place hplace => (take_builds 2).bind fun mark i hmark => ?_
  refine (nodeOver_builds hQ (by decide) hmark).bind fun lead i hlead => ?_
  refine builds_silent (switchTo_reads _) fun _ => (hc .line i).bind fun inner k hinner => ?_
  exact builds_pure (hQ.spanning_cons (by decide) (hlead.append hinner))

theorem BlockNode.builds (hQ : Admits Q) (hc : c.Builds Q n) {r : Reader} {inner : Grammar Tree}
    (h : BlockNode c r inner) : Builds n inner m fun t k => Lies Q m [t] k := by
  cases h with
  | comment => exact razorComment_builds hQ
  | element => exact elementInCode_builds hQ hc tokensLie_nil
  | line => exact lineInCode_builds hQ hc
  | marked => exact bump_builds.bind fun _ _ hmark => elementInCode_builds hQ hc hmark

theorem blockTurn_builds (hQ : Admits Q) (hc : c.Builds Q n) {b : BlockState} (h : b.run.IsAt Q l m) :
    Builds n (blockTurn c b) m fun t k => t.value.run.IsAt Q l k := by
  rintro r hr rfl
  refine gives_blockTurn ((switchTo_reads .csharp r).mono fun _ r₁ hswitch g hmove => ?_)
  have hr₁ := Nat.le_trans hswitch.left hr
  have hplace := hswitch.offset_eq
  cases hmove with
  | stop => exact builds_pure h r₁ hr₁ hplace
  | closes | opens | token => exact ((takeInto_builds h).bind fun _ _ hrun => builds_pure hrun) r₁ hr₁ hplace
  | node _ hinner => exact ((hinner.builds hQ hc).bind fun _ _ ht => builds_pure (h.push hQ ht)) r₁ hr₁ hplace

theorem blockStatements_builds (hQ : Admits Q) (hc : c.Builds Q n) (h : run.IsAt Q l m) :
    Builds n (blockStatements c run) m fun run k => run.IsAt Q l k := by
  refine Builds.bind (P := fun (b : BlockState) k => b.run.IsAt Q l k)
    (builds_loop (fun _ _ => blockTurn_builds hQ hc) h) fun b k hb => ?_
  refine builds_look (fun _ => rfl) fun next => builds_ite (fun _ => ?_) fun _ => builds_pure hb
  exact builds_here fun _ _ => builds_silent (report_reads _ _) fun _ => builds_pure hb

theorem closeBraceNode_builds (hQ : Admits Q) :
    Builds n closeBraceNode l fun trees m => Lies Q l trees m := by
  refine builds_silent (switchTo_reads _) fun _ => builds_look (fun _ => rfl) fun _ => ?_
  refine builds_ite (fun _ => bump_builds.bind fun _ _ htaken => ?_) fun _ => builds_pure lies_nil
  exact (nodeOver_builds hQ (by decide) htaken).bind fun _ _ hnode => builds_pure hnode

theorem codeBlockNode_builds (hQ : Admits Q) (hc : c.Builds Q n) :
    Builds n (codeBlockNode c) l fun t m => Lies Q l [t] m := by
  refine (blockStatements_builds hQ hc CodeRun.isAt_start).bind fun run m hrun => ?_
  refine builds_here fun place hplace => builds_pure ?_
  have hfinish := hrun.finish hQ
  refine hQ.spanning (by decide) hfinish fun hnil => ?_
  rw [hnil] at hfinish
  exact hplace.trans hfinish.tiles.symm

theorem statementBlock_builds (hQ : Admits Q) (hc : c.Builds Q n) (h : Lies Q l [transition] m) :
    Builds n (statementBlock c transition) m fun t k => Lies Q l [t] k := by
  refine bump_builds.bind fun brace i hbrace => ?_
  refine (nodeOver_builds hQ (by decide) hbrace).bind fun opened i hopened => ?_
  refine (codeBlockNode_builds hQ hc).bind fun code j hcode => ?_
  refine (closeBraceNode_builds hQ).bind fun closed k hclosed => builds_pure ?_
  have hbody : Lies Q m [Tree.spanning .statementBody ([opened, code] ++ closed) transition.span] k :=
    hQ.spanning_cons (by decide) ((hopened.cons hcode).append hclosed)
  exact hQ.spanning_cons (by decide) (h.cons hbody)

/-! ## Statements that a keyword starts -/

theorem takeTriviaInto_builds (h : run.IsAt Q l m) (acrossLines : Bool) :
    Builds n (takeTriviaInto run acrossLines) m fun run k => run.IsAt Q l k :=
  (builds_tokens (takeTrivia_reads acrossLines)).bind fun _ _ htaken => builds_pure (h.add htaken)

theorem condition_builds (h : run.IsAt Q l m) : Builds n (condition run) m fun run k => run.IsAt Q l k := by
  refine (takeTriviaInto_builds h true).bind fun run m hrun => builds_look (fun _ => rfl) fun _ => ?_
  refine builds_ite (fun _ => ?_) fun _ => builds_pure hrun
  refine (takeBalanced_builds _ _).bind ?_
  rintro ⟨taken, closed⟩ k htaken
  refine builds_ite (fun _ => ?_) fun _ => builds_pure (hrun.add htaken)
  exact builds_here fun _ _ => builds_silent (report_reads _ _) fun _ => builds_pure (hrun.add htaken)

theorem plainBodyTurn_builds {state : CodeRun × Nat} (h : state.1.IsAt Q l m) :
    Builds n (plainBodyTurn state) m fun t k => t.value.1.IsAt Q l k := by
  unfold plainBodyTurn
  refine builds_look (fun _ => rfl) fun kind => ?_
  cases kind with
  | none => exact builds_pure h
  | some kind =>
      refine (takeInto_builds h).bind fun run k hrun => ?_
      exact builds_ite (fun _ => builds_pure hrun) fun _ => builds_pure hrun

theorem body_builds (hQ : Admits Q) (hc : c.Builds Q n) (h : run.IsAt Q l m) :
    Builds n (body c run) m fun run k => run.IsAt Q l k := by
  refine builds_silent (switchTo_reads _) fun _ => (takeTriviaInto_builds h true).bind fun run m hrun => ?_
  refine builds_look (fun _ => rfl) fun _ => builds_ite (fun _ => ?_) fun _ => ?_
  · refine (takeInto_builds hrun).bind fun run m hrun => ?_
    refine (blockStatements_builds hQ hc hrun).bind fun run k hrun => ?_
    refine builds_silent (switchTo_reads _) fun _ => builds_look (fun _ => rfl) fun _ => ?_
    exact builds_ite (fun _ => takeInto_builds hrun) fun _ => builds_pure hrun
  · refine Builds.bind (P := fun (state : CodeRun × Nat) k => state.1.IsAt Q l k)
      (builds_loop (fun _ _ => plainBodyTurn_builds) hrun) fun state k hstate => builds_pure hstate

theorem continuation_builds (h : run.IsAt Q l m) (words : List Text) :
    Builds n (continuation run words) m fun found k => found.1.IsAt Q l k := by
  refine builds_silent (switchTo_reads _) fun _ => builds_look (fun _ => rfl) fun count => ?_
  refine builds_look (fun _ => rfl) fun next => ?_
  cases next with
  | none => exact builds_pure h
  | some t =>
      refine builds_ite (fun _ => ?_) fun _ => builds_pure h
      exact (take_builds _).bind fun _ _ htaken => builds_pure (h.add htaken)

theorem handlerTurn_builds (hQ : Admits Q) (hc : c.Builds Q n) (h : run.IsAt Q l m) :
    Builds n (handlerTurn c run) m fun t k => t.value.IsAt Q l k := by
  refine (continuation_builds h _).bind ?_
  rintro ⟨run, _ | word⟩ k hrun
  · exact builds_pure hrun
  · refine builds_ite (fun _ => ?_) fun _ => ?_
    · exact (body_builds hQ hc hrun).bind fun _ _ hbody => builds_pure hbody
    · refine (condition_builds hrun).bind fun run k hrun => ?_
      exact (body_builds hQ hc hrun).bind fun _ _ hbody => builds_pure hbody

theorem alternativeTurn_builds (hQ : Admits Q) (hc : c.Builds Q n) (h : run.IsAt Q l m) :
    Builds n (alternativeTurn c run) m fun t k => t.value.IsAt Q l k := by
  refine (continuation_builds h _).bind ?_
  rintro ⟨run, _ | word⟩ k hrun
  · exact builds_pure hrun
  · refine builds_look (fun _ => rfl) fun count => builds_look (fun _ => rfl) fun next => ?_
    refine builds_ite (fun _ => ?_) fun _ => ?_
    · refine (takeTriviaInto_builds hrun true).bind fun run k hrun => ?_
      refine (takeInto_builds hrun).bind fun run k hrun => (condition_builds hrun).bind fun run k hrun => ?_
      exact (body_builds hQ hc hrun).bind fun _ _ hbody => builds_pure hbody
    · exact (body_builds hQ hc hrun).bind fun _ _ hbody => builds_pure hbody

theorem keywordStatement_builds (hQ : Admits Q) (hc : c.Builds Q n) (h : Lies Q l [transition] m) :
    Builds n (keywordStatement c transition) m fun t k => Lies Q l [t] k := by
  have hstart : CodeRun.IsAt Q l { trees := [transition] } m := h
  have hend {run : CodeRun} {k : Nat} (hrun : run.IsAt Q l k) :
      Builds n (pure (Tree.spanning .codeBlock run.finish transition.span)) k fun t k => Lies Q l [t] k :=
    builds_pure (hQ.spanning (by decide) (hrun.finish hQ) fun _ => (tiles_single.mp h.tiles).1)
  refine builds_look (fun _ => rfl) fun next => (takeInto_builds hstart).bind fun run k hrun => ?_
  refine builds_ite (fun _ => ?_) fun _ => builds_ite (fun _ => ?_) fun _ => ?_
  · refine (body_builds hQ hc hrun).bind fun run k hrun => (continuation_builds hrun _).bind ?_
    rintro ⟨run, _ | word⟩ k hrun
    · exact hend hrun
    · refine (condition_builds hrun).bind fun run k hrun => ?_
      refine (takeTriviaInto_builds hrun _).bind fun run k hrun => builds_look (fun _ => rfl) fun _ => ?_
      exact builds_ite (fun _ => (takeInto_builds hrun).bind fun _ _ => hend) fun _ => hend hrun
  · refine (body_builds hQ hc hrun).bind fun run k hrun => ?_
    exact (builds_loop (fun _ _ => handlerTurn_builds hQ hc) hrun).bind fun _ _ => hend
  · refine (condition_builds hrun).bind fun run k hrun => (body_builds hQ hc hrun).bind fun run k hrun => ?_
    refine builds_ite (fun _ => ?_) fun _ => hend hrun
    exact (builds_loop (fun _ _ => alternativeTurn_builds hQ hc) hrun).bind fun _ _ => hend

/-! ## Parts of directives -/

/-- What a directive has been read to lies one behind the other, and is not nothing. -/
structure DirectiveParts.IsAt (Q : Tree → Prop) (l : Nat) (p : DirectiveParts) (m : Nat) : Prop where
  lies : Lies Q l p.trees m
  nonempty : p.trees ≠ []

namespace DirectiveParts

variable {p : DirectiveParts}

theorem IsAt.add (h : p.IsAt Q l m) (htrees : Lies Q m trees k) : (p.add trees).IsAt Q l k :=
  ⟨h.lies.append htrees, fun hnil => h.nonempty (List.append_eq_nil_iff.mp hnil).1⟩

theorem IsAt.addValue (h : p.IsAt Q l m) (v : DirectiveValue) : (p.addValue v).IsAt Q l m :=
  ⟨h.lies, h.nonempty⟩

theorem IsAt.broken (h : p.IsAt Q l m) : p.broken.IsAt Q l m := ⟨h.lies, h.nonempty⟩

end DirectiveParts

variable {p : DirectiveParts}

theorem codePiece_builds (hQ : Admits Q) (h : TokensLie l ts m) :
    Builds n (codePiece ts) m fun trees k => Lies Q l trees k := by
  refine builds_ite (fun hnone => builds_pure ?_) fun _ => ?_
  · rw [List.isEmpty_iff.mp hnone] at h
    obtain rfl : l = m := h
    exact lies_nil
  · exact (nodeOver_builds hQ (by decide) h).bind fun _ _ hnode => builds_pure hnode

theorem values_builds (hQ : Admits Q) (d : Directive) (kinds : List ValueKind) (h : p.IsAt Q l m) :
    Builds n (values d kinds p) m fun p k => p.IsAt Q l k := by
  induction kinds generalizing p m with
  | nil => exact builds_pure h
  | cons kind kinds ih =>
      refine (builds_tokens (takeTrivia_reads false)).bind fun blank i hblank => ?_
      refine builds_here fun place _ => (builds_tokens (valueTokens_reads kind)).bind fun ts j hts => ?_
      refine builds_ite (fun hnone => ?_) fun _ => ?_
      · have hnil : ts = [] := List.isEmpty_iff.mp (Bool.and_eq_true_iff.mp hnone).1
        rw [hnil] at hts
        obtain rfl : i = j := hts
        refine builds_here fun _ _ => builds_silent (report_reads _ _) fun _ => ?_
        exact (codePiece_builds hQ hblank).bind fun _ _ hcode => builds_pure (h.add hcode).broken
      · refine (codePiece_builds hQ (hblank.append hts)).bind fun code k hcode => ih ?_
        split
        · exact h.add hcode
        · exact (h.addValue _).add hcode

theorem addImport_builds (hQ : Admits Q) (h : p.IsAt Q l m) {literal : List Token}
    (hts : TokensLie m literal k) (isStatic : Bool) (place : Span) (given target : List Token)
    (shortName : Option Text) :
    Builds n (addImport p isStatic place given literal target shortName) k
      fun p k => p.IsAt Q l k := by
  refine builds_here fun behind hbehind => builds_pure ((h.addValue _).add (hQ.spanning (by decide) hts.lies ?_))
  intro hnil
  rw [TokensLie, hnil] at hts
  exact hbehind.trans hts.symm

theorem importValue_builds (hQ : Admits Q) (h : p.IsAt Q l m) :
    Builds n (importValue p) m fun p k => p.IsAt Q l k := by
  refine (builds_tokens (takeTrivia_reads false)).bind fun blank i hblank => builds_here fun place _ => ?_
  refine builds_look (fun _ => rfl) fun next => (builds_tokens (staticWord_reads _)).bind fun lead i hlead => ?_
  refine (builds_tokens typeName_reads).bind fun first i hfirst => builds_ite (fun hnone => ?_) fun _ => ?_
  · rw [List.isEmpty_iff.mp hnone] at hfirst
    obtain rfl := hfirst
    refine builds_here fun _ _ => builds_silent (report_reads _ _) fun _ => ?_
    exact (codePiece_builds hQ (hblank.append hlead)).bind fun _ _ hcode => builds_pure (h.add hcode)
  · have hname := (hblank.append hlead).append hfirst
    refine builds_look (fun _ => rfl) fun count => builds_look (fun _ => rfl) fun next => ?_
    refine builds_ite (fun _ => ?_) fun _ => addImport_builds hQ h hname _ _ _ _ _
    refine (take_builds _).bind fun sign i hsign => ?_
    refine (builds_tokens (takeTrivia_reads false)).bind fun gap i hgap => ?_
    refine (builds_tokens typeName_reads).bind fun target k htarget => builds_ite (fun hnone => ?_) fun _ => ?_
    · rw [List.isEmpty_iff.mp hnone] at htarget
      obtain rfl := htarget
      refine builds_here fun _ _ => builds_silent (report_reads _ _) fun _ => ?_
      exact addImport_builds hQ h ((hname.append hsign).append hgap) _ _ _ _ _
    · refine addImport_builds hQ h (hblank.append ?_) _ _ _ _ _
      exact (((hlead.append hfirst).append hsign).append hgap).append htarget

theorem tagHelperLine_builds (hQ : Admits Q) (d : Directive) (h : p.IsAt Q l m) :
    Builds n (tagHelperLine d p) m fun p k => p.IsAt Q l k := by
  refine (builds_tokens (takeTrivia_reads false)).bind fun blank i hblank => builds_here fun place _ => ?_
  refine (builds_tokens lineRest_reads).bind fun ts k hts => builds_here fun behind hbehind => ?_
  have hline := hblank.append hts
  have hcode (label : Option Label) :
      Lies Q m [Tree.spanning .statementCode ((blank ++ ts).map Tree.token) behind label] k := by
    refine hQ.spanning (by decide) hline.lies fun hnil => ?_
    rw [TokensLie, hnil] at hline
    exact hbehind.trans hline.symm
  refine builds_ite (fun hnone => builds_silent (report_reads _ _) fun _ => builds_pure ?_) fun hsome => ?_
  · rw [if_pos hnone]
    exact h.add (hcode _)
  · rw [if_neg hsome, if_neg hsome]
    exact builds_pure ((h.addValue _).add (hcode _))

/-! ## Blocks of directives -/

theorem openBlock_builds (hQ : Admits Q) (d : Directive) (h : p.IsAt Q l m) :
    Builds n (openBlock d p) m fun p k => p.IsAt Q l k := by
  refine (builds_tokens (takeTrivia_reads true)).bind fun blank i hblank => ?_
  refine builds_look (fun _ => rfl) fun _ => builds_ite (fun _ => ?_) fun _ => ?_
  · refine bump_builds.bind fun brace k hbrace => ?_
    refine (nodeOver_builds hQ (by decide) (hblank.append hbrace)).bind fun node k hnode => ?_
    exact builds_pure (h.add hnode)
  · refine builds_here fun _ _ => builds_silent (report_reads _ _) fun _ => ?_
    exact (codePiece_builds hQ hblank).bind fun _ _ hcode => builds_pure (h.add hcode).broken

theorem memberBlock_builds (hQ : Admits Q) (hc : c.Builds Q n) (d : Directive) (h : p.IsAt Q l m) :
    Builds n (memberBlock c d p) m fun p k => p.IsAt Q l k := by
  refine (openBlock_builds hQ d h).bind fun p i hp => ?_
  refine builds_ite (fun _ => builds_pure hp) fun _ => ?_
  refine (codeBlockNode_builds hQ hc).bind fun code j hcode => ?_
  refine (closeBraceNode_builds hQ).bind fun closed k hclosed => builds_pure ?_
  have hmore := hp.add (hcode.cons hclosed)
  split
  · exact hmore.broken
  · exact hmore

theorem markupBlock_builds (hQ : Admits Q) (hc : c.Builds Q n) (d : Directive) (h : p.IsAt Q l m) :
    Builds n (markupBlock c d p) m fun p k => p.IsAt Q l k := by
  refine (openBlock_builds hQ d h).bind fun p i hp => ?_
  refine builds_ite (fun _ => builds_pure hp) fun _ => builds_here fun place hplace => ?_
  refine builds_silent (switchTo_reads _) fun _ => (hc .section i).bind fun inner j hinner => ?_
  refine (closeBraceNode_builds hQ).bind fun closed k hclosed => ?_
  have hblock : Lies Q i [Tree.spanning .markupBlock inner place] j :=
    hQ.spanning (by decide) hinner fun _ => hplace
  have hmore := hp.add (hblock.cons hclosed)
  refine builds_ite (fun _ => ?_) fun _ => builds_pure hmore
  exact builds_here fun _ _ => builds_silent (report_reads _ _) fun _ => builds_pure hmore.broken

/-! ## Whole directives -/

theorem lineEnd_builds (hQ : Admits Q) (semicolon : Bool) (h : p.IsAt Q l m) :
    Builds n (lineEnd semicolon p) m fun p k => p.IsAt Q l k := by
  refine builds_silent (switchTo_reads _) fun _ => builds_look (lineEndCount?_looks semicolon) fun count => ?_
  cases count with
  | none => exact builds_pure h
  | some count =>
      refine (take_builds count).bind fun ts k hts => builds_ite (fun hnone => ?_) fun _ => ?_
      · rw [List.isEmpty_iff.mp hnone] at hts
        obtain rfl := hts
        exact builds_pure h
      · exact (nodeOver_builds hQ (by decide) hts).bind fun _ _ hnode => builds_pure (h.add hnode)

theorem directiveParts_builds (hQ : Admits Q) (hc : c.Builds Q n) (d : Directive)
    (h : p.IsAt Q l m) : Builds n (directiveParts c d p) m fun p k => p.IsAt Q l k := by
  have hline {g : Grammar DirectiveParts} {semicolon : Bool} {m : Nat}
      (hg : Builds n g m fun p k => p.IsAt Q l k) :
      Builds n (do
        let p' ← g
        if p'.complete then lineEnd semicolon p' else return p') m fun p k => p.IsAt Q l k :=
    hg.bind fun _ _ hp => builds_ite (fun _ => lineEnd_builds hQ semicolon hp) fun _ => builds_pure hp
  refine builds_ite (fun _ => ?_) fun _ => ?_
  · exact (importValue_builds hQ h).bind fun _ _ hp => lineEnd_builds hQ true hp
  · split
    · exact hline (values_builds hQ d _ h)
    · exact (tagHelperLine_builds hQ d h).bind fun _ _ hp => lineEnd_builds hQ false hp
    · exact hline (memberBlock_builds hQ hc d h)
    · refine (values_builds hQ d _ h).bind fun p k hp => ?_
      exact builds_ite (fun _ => builds_pure hp) fun _ => hline (markupBlock_builds hQ hc d hp)

theorem directive_builds (hQ : Admits Q) (hc : c.Builds Q n) (h : Lies Q l [transition] m) (d : Directive) :
    Builds n (directive c transition d) m fun t k => Lies Q l [t] k := by
  refine bump_builds.bind fun first i hfirst => ?_
  refine (nodeOver_builds hQ (by decide) hfirst).bind fun node i hnode => ?_
  have hname : DirectiveParts.IsAt Q m { trees := [node] } i := ⟨hnode, List.cons_ne_nil node []⟩
  refine (directiveParts_builds hQ hc d hname).bind fun p k hp => builds_pure ?_
  have hbody : Lies Q m [Tree.spanning .directiveBody p.trees transition.span] k :=
    hQ.spanning (by decide) hp.lies fun hnil => absurd hnil hp.nonempty
  exact hQ.spanning_cons (by decide) (h.cons hbody)

/-! ## Transitions -/

theorem strayTransition_builds (hQ : Admits Q) (h : Lies Q l [transition] m) (start : Span) :
    Builds n (strayTransition start transition) m fun t k => Lies Q l [t] k := by
  refine builds_look (fun _ => rfl) fun _ => builds_silent (report_reads _ _) fun _ => ?_
  refine (nodeOver_builds hQ (by decide) tokensLie_nil).bind fun code k hcode => builds_pure ?_
  exact hQ.spanning_cons (by decide) (h.cons hcode)

theorem transitionMark_builds (hQ : Admits Q) :
    Builds n transitionMark l fun mark m => Lies Q l [mark.2] m := by
  refine builds_here fun start _ => bump_builds.bind fun mark i hmark => ?_
  refine (nodeOver_builds hQ (by decide) hmark).bind fun transition m h => ?_
  exact builds_silent (switchTo_reads _) fun _ => builds_pure h

theorem CodeRule.builds (hQ : Admits Q) (hc : c.Builds Q n) {start : Span} (ht : Lies Q l [transition] m)
    {r : Reader} {g : Grammar Tree} (h : CodeRule c start transition r g) :
    Builds n g m fun t k => Lies Q l [t] k := by
  cases h with
  | statements => exact statementBlock_builds hQ hc ht
  | explicit => exact explicitExpression_builds hQ ht
  | directive d => exact directive_builds hQ hc ht d
  | implicit => exact implicitExpression_builds hQ ht
  | stray => exact strayTransition_builds hQ ht start

theorem codeTransition_builds (hQ : Admits Q) (hc : c.Builds Q n) :
    Builds n (codeTransition c) l fun t m => Lies Q l [t] m := by
  intro r hr hl
  refine gives_codeTransition ((transitionMark_builds hQ r hr hl).mono ?_)
  rintro ⟨start, transition⟩ r₁ ⟨ht, hr₁⟩
  refine ⟨fun g hrule => ?_, keywordStatement_builds hQ hc ht r₁ hr₁ rfl⟩
  refine (hrule.builds hQ hc ht r₁ hr₁ rfl).mono ?_
  rintro t r' ⟨ht, hr'⟩
  exact ⟨hQ.spanning_cons (by decide) ht, hr'⟩

end Grammar

end RazorLang
