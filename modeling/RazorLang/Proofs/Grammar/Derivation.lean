import RazorLang.Proofs.Grammar.Markup
import RazorLang.Proofs.Token.Lossless
import RazorLang.Proofs.Tree.Delimiters
import RazorLang.Proofs.Tree.Leads

/-!
# Derivations

What the rules of the grammar make of a stretch of a source is said once, by a relation: `Derives inside r
trees r'` if, between two readers, tokens are read, nodes are put over trees, and what is reported goes with
the nodes. The relation has one constructor for each of these, and `Completes` lists the ways in which a node
can be complete and which of them are reported. A property of all parsed documents is then an induction over
derivations, and nothing about the rules themselves has to be looked at again.

The flag says whether the trees stand right inside an element.

Main statements: `implicitExpression_derives`, `explicitExpression_derives`; the other rules follow in the
modules on the derivations of code and markup.
-/

namespace RazorLang

open RazorLang.Tree

/-! ## Tokens read in silence -/

namespace Reader

/-- Between two readers lie some tokens, and nothing is reported. -/
structure Passes (r : Reader) (ts : List Token) (r' : Reader) : Prop where
  run : Token.Run r.tokenizer.path r.tokenizer.place r.tokenizer.rest ts r'.tokenizer.place
    r'.tokenizer.rest
  path : r'.tokenizer.path = r.tokenizer.path
  left : r'.left ≤ r.left
  reported : r'.reported = r.reported

variable {r r' r'' : Reader} {ts us : List Token}

theorem Passes.refl (r : Reader) : r.Passes [] r := ⟨.nil _ _, rfl, Nat.le_refl _, rfl⟩

theorem Passes.trans (h : r.Passes ts r') (h' : r'.Passes us r'') : r.Passes (ts ++ us) r'' := by
  have hrun := h'.run
  rw [h.path] at hrun
  exact ⟨h.run.trans hrun, h'.path.trans h.path, Nat.le_trans h'.left h.left,
    h'.reported.trans h.reported⟩

theorem Reads.passes (h : r.Reads ts r') (hreported : r'.reported = r.reported) : r.Passes ts r' :=
  ⟨h.run, h.path, h.left, hreported⟩

/-- A repetition that would go on for ever reads nothing. -/
theorem passes_stalled (r : Reader) : r.Passes [] { r with stalled := true } :=
  ⟨.nil _ _, rfl, Nat.le_refl _, rfl⟩

/-- The reader with some more reports. -/
def note (r : Reader) (reports : List Diagnostic) : Reader :=
  { r with reported := reports ++ r.reported }

theorem note_append (r : Reader) (reports more : List Diagnostic) :
    r.note (reports ++ more) = (r.note more).note reports := by
  rw [note, note, note, List.append_assoc]

/-- What has been reported does not matter to what is read. -/
theorem Passes.note (h : r.Passes ts r') (reports : List Diagnostic) :
    (r.note reports).Passes ts (r'.note reports) :=
  ⟨h.run, h.path, h.left, congrArg (reports ++ ·) h.reported⟩

/-- No token is ahead. -/
def AtEnd (r : Reader) : Prop := r.tokenizer.peek? = none

theorem AtEnd.rest (h : r.AtEnd) : r.tokenizer.rest = [] := Grammar.rest_of_peek_eq_none h

theorem AtEnd.next (h : r.AtEnd) : r.tokenizer.next? = none := Option.map_eq_none_iff.mp h

theorem AtEnd.peekNth (h : r.AtEnd) (n : Nat) : r.tokenizer.peekNth? n = none := by
  cases n with
  | zero => exact h
  | succ n => rw [Tokenizer.peekNth?, h.next, Option.bind_none]

theorem AtEnd.switch (h : r.AtEnd) (language : Language) :
    ({ r with tokenizer := r.tokenizer.switch language } : Reader).AtEnd := by
  unfold AtEnd Tokenizer.switch
  split
  · exact h
  · show Option.map Prod.fst (Tokenizer.next? _) = none
    unfold Tokenizer.next?
    rw [if_neg (show Mode.data ≠ .commentBody from nofun), h.rest]
    rfl

/-- The report of a block in braces that has not ended where the reader is. -/
def unended (r : Reader) (block : Text) : Diagnostic :=
  ⟨.missingClose block '\x7b' '\x7d', Span.empty r.tokenizer.path r.tokenizer.place⟩

end Reader

/-! ## Derivations -/

/-- The reports that say nothing of the nodes that `Completes` is about. -/
def Cause.isAside : Cause → Bool
  | unclosedElement _ | unexpectedEndTag _ => false
  | missingClose block .. => block != "explicit expression".toList && block != "code".toList
  | _ => true

/-- The kinds of nodes that are complete whatever they hold. -/
def NodeKind.isSimple : NodeKind → Bool
  | element | explicitExpression | statementBody | directiveBody => false
  | _ => true

/-- How a node, right inside an element or not, can be complete at a reader, and what is reported of it. -/
inductive Completes (inside : Bool) (n : Tree) (r : Reader) : List Diagnostic → Prop where
  | simple {kind : NodeKind} (h : n.kind? = some kind) (simple : kind.isSimple = true) :
      Completes inside n r []
  | element (h : n.kind? = some .element) (shape : ElementShape n.children) (paired : TextPaired inside n)
      (lead : ∃ u ∈ n.lead?, u.content ≠ []) : Completes inside n r n.nestingReport?.toList
  | expression (h : n.kind? = some .explicitExpression) (closed : n.IsClosedExpression) :
      Completes inside n r []
  | body (h : n.isBody = true) (closed : ClosesBlocks n.children) : Completes inside n r []
  /-- An explicit expression ends with the source. -/
  | openExpression {transition : Tree} (h : n.IsOpenExpression transition) (atEnd : r.AtEnd) :
      Completes inside n r [⟨.missingClose "explicit expression" '(' ')', transition.span⟩]
  /-- A block of statements ends with the source. -/
  | openBlock (h : n.LeavesOpen) (begins : n.isBody = true → BeginsWith .metaCode n.children) (atEnd : r.AtEnd) :
      Completes inside n r [r.unended "code"]

/-- What the grammar makes of what is between two readers. -/
inductive Derives : Bool → Reader → List Tree → Reader → Prop where
  | read {inside : Bool} {r r' : Reader} {ts : List Token} (h : r.Passes ts r') :
      Derives inside r (ts.map .token) r'
  | append {inside : Bool} {r r' r'' : Reader} {trees more : List Tree}
      (h : Derives inside r trees r') (h' : Derives inside r' more r'') :
      Derives inside r (trees ++ more) r''
  | note {inside : Bool} {r : Reader} {cause : Cause} {span : Span} (aside : cause.isAside = true) :
      Derives inside r [] (r.note [⟨cause, span⟩])
  | node {inside : Bool} {r r' : Reader} {kind : NodeKind} {span : Span} {label : Option Label}
      {trees : List Tree} {reports : List Diagnostic}
      (complete : Completes inside (.node kind span label trees) r' reports)
      (h : Derives (kind == .element) r trees r') :
      Derives inside r [.node kind span label trees] (r'.note reports)

namespace Derives

variable {inside : Bool} {r r' r'' : Reader} {trees more : List Tree} {ts us : List Token}

theorem refl (inside : Bool) (r : Reader) : Derives inside r [] r := .read (.refl r)

theorem left (h : Derives inside r trees r') : r'.left ≤ r.left := by
  induction h with
  | read h => exact h.left
  | append h h' ih ih' => exact Nat.le_trans ih' ih
  | note aside => exact Nat.le_refl _
  | node complete h ih => exact ih

/-- Between the readers of a derivation lie the tokens of its trees. -/
theorem run (h : Derives inside r trees r') :
    Token.Run r.tokenizer.path r.tokenizer.place r.tokenizer.rest (tokensAll trees)
      r'.tokenizer.place r'.tokenizer.rest ∧ r'.tokenizer.path = r.tokenizer.path := by
  induction h with
  | read h =>
      rw [tokensAll_map_token]
      exact ⟨h.run, h.path⟩
  | append h h' ih ih' =>
      rw [tokensAll_append]
      have hrun := ih'.1
      rw [ih.2] at hrun
      exact ⟨ih.1.trans hrun, ih'.2.trans ih.2⟩
  | note aside => exact ⟨.nil _ _, rfl⟩
  | node complete h ih =>
      rw [tokensAll_cons, tokensAll_nil, List.append_nil, tokens_node]
      exact ih

theorem pass (h : Derives inside r trees r') (h' : r'.Passes [] r'') : Derives inside r trees r'' := by
  rw [← List.append_nil trees]
  exact h.append (.read h')

theorem noting (h : Derives inside r trees r') {cause : Cause} {span : Span} (aside : cause.isAside = true) :
    Derives inside r trees (r'.note [⟨cause, span⟩]) := by
  rw [← List.append_nil trees]
  exact h.append (.note aside)

section

variable {kind : NodeKind} {span : Span} {label : Option Label}

/-- A node that is no element, and what is reported of it. -/
theorem other (h : Derives false r trees r') (hkind : kind ≠ .element) {reports : List Diagnostic}
    (complete : Completes inside (.node kind span label trees) r' reports) :
    Derives inside r [.node kind span label trees] (r'.note reports) := by
  rw [← beq_eq_false_iff_ne] at hkind
  exact .node complete (hkind.symm ▸ h)

/-- A node that is complete whatever it holds. -/
theorem simple (h : Derives false r trees r') (hkind : kind.isSimple = true) :
    Derives inside r [.node kind span label trees] r' := by
  refine h.other ?_ (.simple rfl hkind)
  rintro rfl
  exact Bool.false_ne_true hkind

/-- An explicit expression with its parenthesis. -/
theorem closedExpression (h : Derives false r trees r')
    (hclosed : (Tree.node .explicitExpression span label trees).IsClosedExpression) :
    Derives inside r [.node .explicitExpression span label trees] r' :=
  h.other (by decide) (.expression rfl hclosed)

/-- A body whose blocks are closed. -/
theorem closedBody (h : Derives false r trees r') (hclosed : ClosesBlocks trees)
    (hkind : (Tree.node kind span label trees).isBody = true) :
    Derives inside r [.node kind span label trees] r' := by
  refine h.other ?_ (.body hkind hclosed)
  rintro rfl
  exact Bool.false_ne_true hkind

/-- A node in which a block is open at the end of the source. -/
theorem openBlock (h : Derives false r trees r') (hopen : (Tree.node kind span label trees).LeavesOpen)
    (hbegins : (Tree.node kind span label trees).isBody = true → BeginsWith .metaCode trees) (hatEnd : r'.AtEnd)
    (hpasses : (r'.note [r'.unended "code"]).Passes [] r'') :
    Derives inside r [.node kind span label trees] r'' := by
  refine (h.other ?_ (.openBlock hopen hbegins hatEnd)).pass hpasses
  rintro rfl
  rcases hopen with ⟨hbody, -⟩ | ⟨hblock, -⟩
  · exact Bool.false_ne_true hbody
  · exact nomatch hblock

end

end Derives

namespace Grammar

open Reader

variable {α β : Type} {r r' r₀ : Reader} {ts us : List Token} {trees : List Tree}

/-! ## Repetition -/

/-- A turn asks for another one with `I` and leaves less to read, or is the last one and leads to `P`. -/
def Turn.Steps (I P : α → Reader → Prop) (r : Reader) : Turn α → Reader → Prop
  | .done a, r' => P a r'
  | .again a, r' => I a r' ∧ r'.left < r.left

/-- A repetition whose turns leave less to read ends with a last turn. -/
theorem gives_loop_until {turn : α → Grammar (Turn α)} {I P : α → Reader → Prop} {a : α}
    (hturn : ∀ a r, I a r → Gives (turn a) r (Turn.Steps I P r)) (ha : I a r) :
    Gives (loop turn a) r P := by
  refine gives_loop_of_proceeds (P := fun _ _ => P) (fun a r ha => (hturn a r ha).mono ?_) ha
  rintro (a' | a') r' h
  · exact h
  · obtain ⟨hI, hlt⟩ : I a' r' ∧ r'.left < r.left := h
    exact (Turn.proceeds_again hlt).mpr ⟨hI, fun _ _ hend => hend⟩

/-! ## Rules that report nothing -/

/-- A rule reports nothing. -/
def Silent (g : Grammar α) : Prop := ∀ r, Gives g r fun _ r' => r'.reported = r.reported

theorem silent_pure (a : α) : Silent (pure a : Grammar α) := fun _ => rfl

theorem Silent.bind {g : Grammar α} {f : α → Grammar β} (h : Silent g) (hf : ∀ a, Silent (f a)) :
    Silent (g >>= f) := fun r => (hf _ _).trans (h r)

theorem Looks.silent {g : Grammar α} (h : Looks g) : Silent g := fun r => congrArg Reader.reported (h r)

theorem silent_look {g : Grammar α} {f : α → Grammar β} (h : Looks g) (hf : ∀ a, Silent (f a)) :
    Silent (g >>= f) := h.silent.bind hf

theorem silent_ite {c : Prop} [Decidable c] {g g' : Grammar α} (h : Silent g) (h' : Silent g') :
    Silent (if c then g else g') := by
  split
  · exact h
  · exact h'

theorem silent_loop {turn : α → Grammar (Turn α)} (hturn : ∀ a, Silent (turn a)) (a : α) :
    Silent (loop turn a) := fun r =>
  gives_loop_keeps (I := fun _ r' => r'.reported = r.reported) (fun _ _ h => h)
    (fun a r' h => (hturn a r').trans h) rfl

theorem bump_silent : Silent bump := by
  intro r
  cases h : r.tokenizer.next? with
  | none =>
      unfold Gives
      rw [bump_end h]
  | some p =>
      unfold Gives
      rw [bump_eq h]

theorem switchTo_silent (language : Language) : Silent (switchTo language) := fun _ => rfl

theorem take_silent (n : Nat) : Silent (take n) := by
  induction n with
  | zero => exact silent_pure []
  | succ n ih =>
      rw [take]
      exact bump_silent.bind fun _ => ih.bind fun _ => silent_pure _

theorem takeWhile_silent (p : TokenKind → Bool) : Silent (takeWhile p) := by
  refine silent_loop (fun ts => ?_) []
  refine silent_look (fun _ => rfl) fun kind => ?_
  split
  · exact silent_pure _
  · exact silent_ite (bump_silent.bind fun _ => silent_pure _) (silent_pure _)

theorem takeBalanced_silent (opener closer : TokenKind) : Silent (takeBalanced opener closer) := by
  refine (silent_loop (fun state => bump_silent.bind fun taken => ?_) _).bind fun _ => silent_pure _
  split
  · exact silent_pure _
  · refine silent_ite (silent_pure _) (silent_ite ?_ (silent_pure _))
    exact silent_ite (silent_pure _) (silent_pure _)

theorem razorComment_silent : Silent razorComment := by
  refine (silent_loop (fun state => ?_) _).bind fun _ => Looks.silent fun _ => rfl
  refine silent_look (fun _ => rfl) fun kind => ?_
  split
  · exact silent_pure _
  · exact silent_ite (silent_pure _) (bump_silent.bind fun _ => silent_pure _)

theorem awaitWord_silent : Silent awaitWord :=
  awaitAhead_looks.silent.bind fun _ => silent_ite (take_silent 2) (silent_pure _)

/-! ## Tokens -/

/-- A rule that reads tokens and reports nothing. -/
theorem gives_passes {g : Grammar α} {f : α → List Token} {P : α → Reader → Prop}
    (hreads : Gives g r fun a r' => r.Reads (f a) r' ∧ P a r') (hsilent : Silent g) :
    Gives g r fun a r' => r.Passes (f a) r' := hreads.1.passes (hsilent r)

theorem bump_passes (r : Reader) : Gives bump r fun ts r' => r.Passes ts r' :=
  gives_passes (f := id) (bump_reads r) bump_silent

theorem take_passes (n : Nat) (r : Reader) : Gives (take n) r fun ts r' => r.Passes ts r' :=
  gives_passes (f := id) (take_reads n r) (take_silent n)

theorem takeTrivia_passes (acrossLines : Bool) (r : Reader) :
    Gives (takeTrivia acrossLines) r fun ts r' => r.Passes ts r' :=
  Reads.passes (takeTrivia_reads acrossLines r) (takeWhile_silent _ r)

theorem takeBalanced_passes (opener closer : TokenKind) (r : Reader) :
    Gives (takeBalanced opener closer) r fun taken r' => r.Passes taken.1 r' :=
  gives_passes (takeBalanced_reads opener closer r) (takeBalanced_silent opener closer)

theorem switchTo_passes (language : Language) (r : Reader) :
    Gives (switchTo language) r fun _ r' => r.Passes [] r' :=
  Reads.passes (switchTo_reads language r) (switchTo_silent language r)

/-- The next token is taken as it is. -/
theorem bump_kind {kind : TokenKind} (h : r.tokenizer.peek?.map (·.kind) = some kind) :
    Gives bump r fun ts r' => ∃ t, ts = [t] ∧ t.kind = kind ∧ r.Passes [t] r' ∧ r'.left < r.left := by
  obtain ⟨t, ht, hkind⟩ := Option.map_eq_some_iff.mp h
  obtain ⟨⟨t, s⟩, hnext, rfl⟩ := Option.map_eq_some_iff.mp ht
  have hpasses := bump_passes r
  have hless := (bump_reads r).2.1 (hasNext_of_kind h)
  unfold Gives at hpasses ⊢
  rw [bump_eq hnext] at hpasses hless ⊢
  exact ⟨t, rfl, hkind, hpasses, hless⟩

/-- The next token has text, unless it is the body of a comment. -/
theorem bump_content {kind : TokenKind} (h : r.tokenizer.peek?.map (·.kind) = some kind)
    (hkind : kind ≠ .commentBody) : Gives bump r fun ts _ => ∀ t ∈ ts, t.content ≠ [] := by
  obtain ⟨t, ht, rfl⟩ := Option.map_eq_some_iff.mp h
  obtain ⟨⟨t, s⟩, hnext, rfl⟩ := Option.map_eq_some_iff.mp ht
  unfold Gives
  rw [bump_eq hnext]
  exact List.forall_mem_singleton.mpr (Tokenizer.next?_content_ne_nil hnext hkind)

/-- The node over the next token begins with it. -/
theorem bump_begins (h : HasNext r) (kind : NodeKind) :
    Gives bump r fun ts _ => ∀ place, BeginsWith kind [overTokens kind ts place] := by
  obtain ⟨t, ht⟩ := Option.isSome_iff_exists.mp h
  obtain ⟨⟨t, s⟩, hnext, rfl⟩ := Option.map_eq_some_iff.mp ht
  unfold Gives
  rw [bump_eq hnext]
  exact fun place => ⟨_, rfl, rfl, t, rfl⟩

/-- Between two readers lie some tokens; something may have been reported that is about no node. -/
def Gathers (r : Reader) (ts : List Token) (r' : Reader) : Prop := Derives false r (ts.map .token) r'

theorem Gathers.refl (r : Reader) : Gathers r [] r := Derives.refl false r

theorem Gathers.add (h : Gathers r₀ ts r) (h' : r.Passes us r') : Gathers r₀ (ts ++ us) r' := by
  unfold Gathers
  rw [List.map_append]
  exact h.append (.read h')

/-- The node over some tokens. -/
theorem Gathers.node {inside : Bool} (h : Gathers r₀ ts r) {kind : NodeKind} (hkind : kind.isSimple = true)
    {place : Span} : Derives inside r₀ [overTokens kind ts place] r := Derives.simple h hkind

theorem Gathers.note (h : Gathers r₀ ts r) {cause : Cause} {span : Span} (aside : cause.isAside = true) :
    Gathers r₀ ts (r.note [⟨cause, span⟩]) := h.noting aside

@[simp] theorem gives_report {cause : Cause} {span : Span} {P : Unit → Reader → Prop} :
    Gives (report cause span) r P ↔ P () (r.note [⟨cause, span⟩]) := Iff.rfl

@[simp] theorem gives_reportAll {reports : List Diagnostic} {P : Unit → Reader → Prop} :
    Gives (reportAll reports) r P ↔ P () (r.note reports.reverse) := Iff.rfl

theorem razorComment_derives (inside : Bool) (r : Reader) :
    Gives razorComment r fun t r' => Derives inside r [t] r' ∧ t.kind? = some .razorComment := by
  have hpasses := (razorComment_reads r).1.passes (razorComment_silent r)
  have hnode : Gives razorComment r fun t _ => ∃ ts place, t = overTokens .razorComment ts place :=
    ⟨_, _, rfl⟩
  obtain ⟨ts, place, ht⟩ := hnode
  unfold Gives
  rw [ht] at hpasses ⊢
  rw [tokens_overTokens] at hpasses
  exact ⟨Gathers.node (.read hpasses) rfl, rfl⟩

/-! ## Expressions -/

theorem awaitWord_passes (r : Reader) : Gives awaitWord r fun ts r' => r.Passes ts r' :=
  Reads.passes (awaitWord_reads r) (awaitWord_silent r)

/-- A call or an index is taken up to its closing token, and it is reported if there is none. -/
theorem takeBalanced_gathers (h : Gathers r₀ ts r) (opener closer : TokenKind) {cause : Cause}
    (haside : cause.isAside = true) (start : Span) :
    Gives (do
      let (taken, closed) ← takeBalanced opener closer
      if closed then return Turn.again (ts ++ taken)
      report cause start
      return .done (ts ++ taken)) r fun t r' => Gathers r₀ t.value r' := by
  rw [gives_bind]
  refine (takeBalanced_passes opener closer r).mono ?_
  rintro ⟨taken, closed⟩ r' htaken
  dsimp only at htaken ⊢
  split
  · exact h.add htaken
  · rw [gives_bind, gives_report]
    exact (h.add htaken).note haside

theorem implicitTurn_gathers (start : Span) (h : Gathers r₀ ts r) :
    Gives (implicitTurn start ts) r fun t r' => Gathers r₀ t.value r' := by
  have htake (n : Nat) : Gives (do return .again (ts ++ (← take n))) r
      fun (t : Turn (List Token)) r' => Gathers r₀ t.value r' := by
    rw [gives_bind]
    exact (take_passes n r).mono fun _ _ htaken => h.add htaken
  unfold implicitTurn
  rw [gives_bind, gives_kind?]
  -- the cases are those of the next token; nothing but tokens is read in any of them
  split
  · exact takeBalanced_gathers h .openParen .closeParen rfl start
  · exact takeBalanced_gathers h .openBracket .closeBracket rfl start
  · rw [gives_bind]
    refine (memberAt_looks 1).gives fun member => ?_
    split
    · exact htake 2
    · exact h
  · rw [gives_bind, gives_kindAt?]
    split
    · rw [gives_bind]
      refine (memberAt_looks 2).gives fun member => ?_
      split
      · exact htake 3
      · exact h
    · rw [gives_bind]
      refine (bump_passes r).mono fun mark r' hmark => ?_
      rw [gives_bind]
      refine (takeBalanced_passes .openBracket .closeBracket r').mono ?_
      rintro ⟨taken, closed⟩ r'' htaken
      have hall := (h.add hmark).add htaken
      dsimp only
      split
      · exact hall
      · exact hall
    · exact h
  · rw [gives_bind, gives_kindAt?]
    have hnot : Gives (do return Turn.again (ts ++ (← bump))) r fun t r' => Gathers r₀ t.value r' := by
      rw [gives_bind]
      exact (bump_passes r).mono fun _ _ htaken => h.add htaken
    split
    · exact hnot
    · exact hnot
    · exact h
  · exact h

/-- An expression behind its transition. -/
theorem implicitExpression_derives {transition : Tree} (h : Derives false r₀ [transition] r) :
    Gives (implicitExpression transition) r fun t r' => Derives false r₀ [t] r' := by
  unfold implicitExpression
  simp only [gives_bind, gives_nodeOver, gives_pure]
  refine (awaitWord_passes r).mono fun lead r₁ hlead => ?_
  refine (bump_passes r₁).mono fun first r₂ hfirst => ?_
  refine (gives_loop_keeps (I := Gathers r) (fun _ r' h => h.pass (passes_stalled r'))
    (fun _ _ => implicitTurn_gathers _) (((Gathers.refl r).add hlead).add hfirst)).mono
    fun ts r₃ hts => ?_
  exact (h.append (hts.node rfl)).simple rfl

/-- How far an explicit expression has been read: its tokens, the parentheses open, and nothing that closes
    it. -/
structure ExplicitAt (r₀ : Reader) (state : List Token × Nat × List Token) (r : Reader) : Prop where
  tokens : Gathers r₀ state.1 r
  nests : Nests .openParen .closeParen state.1 state.2.1
  unclosed : state.2.2 = []

/-- How an explicit expression ends: with its parenthesis, or with the source. -/
def ExplicitEnd (r₀ : Reader) (state : List Token × Nat × List Token) (r : Reader) : Prop :=
  (state.2.2 = [] ∧ Gathers r₀ state.1 r ∧ r.AtEnd) ∨
    ∃ t r', state.2.2 = [t] ∧ t.kind = .closeParen ∧ Gathers r₀ state.1 r' ∧ r'.Passes [t] r ∧
      Balanced .openParen .closeParen state.1

theorem explicitTurn_at {state : List Token × Nat × List Token} (h : ExplicitAt r₀ state r) :
    Gives (explicitTurn state) r (Turn.Steps (ExplicitAt r₀) (ExplicitEnd r₀) r) := by
  obtain ⟨ts, depth, closing⟩ := state
  obtain ⟨hts, hnests, rfl : closing = []⟩ := h
  dsimp only at hts hnests
  -- one more token, behind which `depth'` parentheses are open
  have hagain {kind : TokenKind} {depth' : Nat} (hkind : r.tokenizer.peek?.map (·.kind) = some kind)
      (hnext : ∀ t : Token, t.kind = kind → Nests .openParen .closeParen (ts ++ [t]) depth') :
      Gives (do return Turn.again (ts ++ (← bump), depth', [])) r
        (Turn.Steps (ExplicitAt r₀) (ExplicitEnd r₀) r) := by
    rw [gives_bind]
    refine (bump_kind hkind).mono ?_
    rintro taken r' ⟨t, rfl, ht, hpasses, hless⟩
    exact ⟨⟨hts.add hpasses, hnext t ht, rfl⟩, hless⟩
  unfold explicitTurn
  rw [gives_bind, gives_kind?]
  split
  · next hnone => exact Or.inl ⟨rfl, hts, Option.map_eq_none_iff.mp hnone⟩
  · next hkind =>
      split
      · next hzero =>
          subst hzero
          rw [gives_bind]
          refine (bump_kind hkind).mono ?_
          rintro taken r' ⟨t, rfl, ht, hpasses, -⟩
          exact Or.inr ⟨t, r, rfl, ht, hts, hpasses, hnests⟩
      · next hpos =>
          obtain ⟨n, rfl⟩ := Nat.exists_eq_succ_of_ne_zero hpos
          exact hagain hkind fun t ht => hnests.closes (by decide) ht
  · next hkind => exact hagain hkind fun t ht => hnests.opens (by decide) ht
  · next kind hopen hclose hkind =>
      refine hagain hkind fun t ht => hnests.other ?_ ?_
      · exact fun heq => hclose (heq ▸ ht ▸ rfl)
      · exact fun heq => hopen (heq ▸ ht ▸ rfl)

/-- The token between delimiters is their node. -/
theorem isDelimiter_overTokens {kind : TokenKind} {t : Token} (ht : t.kind = kind) {place : Span} :
    IsDelimiter kind (overTokens .metaCode [t] place) := ⟨rfl, t, rfl, ht⟩

/-- An explicit expression behind its transition. -/
theorem explicitExpression_derives {transition : Tree} (h : Derives false r₀ [transition] r)
    (htransition : transition.IsTransition) :
    Gives (explicitExpression transition) r fun t r' => Derives false r₀ [t] r' := by
  unfold explicitExpression
  simp only [gives_bind, gives_nodeOver]
  refine (bump_passes r).mono fun first r₁ hfirst => ?_
  generalize hopened : overTokens .metaCode first _ = opened
  have hlead : Derives false r₀ [transition, opened] r₁ := hopened ▸ h.append (Gathers.node (.read hfirst) rfl)
  refine (gives_loop_until (fun _ _ => explicitTurn_at)
    (show ExplicitAt r₁ _ r₁ from ⟨Gathers.refl r₁, NestsBy.nil, rfl⟩)).mono ?_
  rintro ⟨ts, depth, closing⟩ r₂ hend
  rcases hend with ⟨rfl, hts, hatEnd⟩ | ⟨t, r₂', rfl, ht, hts, hpasses, hbalanced⟩
  · simp only [List.isEmpty_nil, if_true, gives_bind, gives_report, gives_pure]
    refine (hlead.append (hts.node rfl)).other (by decide) ?_
    exact .openExpression ⟨rfl, htransition, opened, _, rfl, rfl⟩ hatEnd
  · simp only [List.isEmpty_cons, Bool.false_eq_true, if_false, gives_bind, gives_nodeOver, gives_pure]
    have hclosed {place : Span} : Derives false r₂' [overTokens .metaCode [t] place] r₂ :=
      Gathers.node (.read hpasses) rfl
    refine ((hlead.append (hts.node rfl)).append hclosed).closedExpression ?_
    refine ⟨_, _, _, _, rfl, htransition, rfl, isDelimiter_overTokens ht, ?_⟩
    rw [ownTokens_overTokens]
    exact hbalanced

end Grammar

end RazorLang
