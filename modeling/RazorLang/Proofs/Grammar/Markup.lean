import RazorLang.Proofs.Grammar.Nesting
import RazorLang.Proofs.Grammar.Transition

/-!
# Markup: what is read

Main statement: `markup_reads` — the rule for markup reads exactly the tokens of the trees that it builds,
and never stalls. The route: tags and transitions add their tokens to a `MarkupRun`
(`takeTag_grows`, `takeTransition_grows`), so each turn does (`markupTurn_advances`); markup inside of code is
the same rule with less to read (`around`), so that an induction on what is left closes the circle. What a turn may
do is said once, for start tags and for runs of markup (`gives_startTagTurn`, `gives_markupTurn`). All that is
known of the rule for markup comes from what a run of markup gives, by `gives_markup` if nothing has to be known
of the markup inside of code, and else by the induction, `gives_markup_of_run`.
-/

namespace RazorLang

open RazorLang.Tree

theorem Surroundings.Sound.mono {c : Surroundings} {m n : Nat} (h : c.Sound n) (hle : m ≤ n) :
    c.Sound m := fun scope r hr => h scope r (Nat.lt_of_lt_of_le hr hle)

namespace Grammar

open Reader

theorem escapeAhead_looks : Looks escapeAhead := fun _ => rfl

theorem addressAhead_looks : Looks addressAhead := by
  intro r
  unfold addressAhead
  simp only [gives_bind, gives_get]
  split
  all_goals rfl

/-! ## Tags -/

theorem declaration_reads (r : Reader) :
    Gives declaration r fun ts r' => r.Reads ts r' ∧ (HasNext r → r'.left < r.left) := by
  unfold declaration
  refine (gives_loop_left (f := id) (I := fun _ => True) (J := fun _ => True) (q := HasNext r)
    ?_ trivial ?_).mono ?_
  · intro ts r' _ _
    simp only [gives_bind]
    refine (bump_reads r').mono ?_
    rintro taken r'' ⟨htaken, hless, hsome⟩
    split
    · exact ⟨(Adds.refl r' ts).trans_nil htaken, trivial⟩
    · split
      · exact Collects.done htaken ts
      · exact Collects.again htaken (hless (hsome (List.cons_ne_nil _ _))) ts
  · intro hnext
    simp only [gives_bind]
    refine (bump_reads r).mono ?_
    rintro taken r' ⟨_, hless, _⟩
    repeat' split
    all_goals exact hless hnext
  · rintro ts r' ⟨hadds, _, hless⟩
    exact ⟨adds_nil.mp hadds, hless⟩

theorem htmlComment_reads (r : Reader) :
    Gives htmlComment r fun ts r' => r.Reads ts r' ∧ (HasNext r → r'.left < r.left) := by
  unfold htmlComment
  simp only [gives_bind]
  refine (take_reads 3 r).mono ?_
  rintro lead r₁ ⟨hlead, hless⟩
  refine (gives_loop_collects (fun ts r' => ?_) lead r₁).mono fun ts r₂ hloop => ?_
  · simp only [gives_bind]
    refine (bump_reads r').mono ?_
    rintro taken r'' ⟨htaken, hless, hsome⟩
    split
    · exact ⟨(Adds.refl r' ts).trans_nil htaken, trivial⟩
    · simp only [gives_bind, gives_isAt]
      split
      · simp only [gives_bind, gives_pure]
        refine (bump_reads r'').mono ?_
        rintro closing r₃ ⟨hclosing, _⟩
        rw [List.append_assoc]
        exact Collects.done (htaken.trans hclosing) ts
      · exact Collects.again htaken (hless (hsome (List.cons_ne_nil _ _))) ts
  · refine ⟨hlead.trans_adds hloop, fun hnext => ?_⟩
    exact Nat.lt_of_le_of_lt hloop.left (hless (by omega) hnext)

/-- The tokens of a tag. -/
def Tag.tokens : Tag → List Token
  | .opening _ t _ => t.tokens
  | .closing _ t => t.tokens
  | .text ts => ts

/-- The node of a tag is such as the grammar builds. -/
def Tag.Parsed : Tag → Prop
  | .opening _ t _ => t.Parsed
  | .closing _ t => t.Parsed
  | .text _ => True

/-- A tag is read, and at least the token that it starts with. -/
def ReadsTag (r : Reader) (t : Tag) (r' : Reader) : Prop :=
  r.Reads t.tokens r' ∧ t.Parsed ∧ (HasNext r → r'.left < r.left)

section

variable {c : Surroundings}

/-- The rules that a turn along a start tag comes down to, each with what is known where it does: it stops, it
    takes a token that goes into the tag as it is, it takes the end of the tag, or it takes code or a comment. -/
inductive StartTagMove (c : Surroundings) (s : StartTagState) (r : Reader) : Grammar (Turn StartTagState) → Prop where
  | stop (hkind : r.tokenizer.peek?.map (·.kind) ∈ [none, some .openAngle]) : StartTagMove c s r (pure (.done s))
  | token {kind : TokenKind} (hkind : r.tokenizer.peek?.map (·.kind) = some kind)
      (hother : ¬ (kind = .doubleQuote ∨ kind = .singleQuote))
      (hslash : kind = .slash → s.quote = none → (r.tokenizer.peekNth? 1).map (·.kind) ≠ some .closeAngle) :
      StartTagMove c s r (do
        return .again { s with trees := s.trees ++ (← bump).map Tree.token, quote := s.quote, previous := kind })
  | mark {kind : TokenKind} (hkind : r.tokenizer.peek?.map (·.kind) = some kind)
      (hmark : kind = .doubleQuote ∨ kind = .singleQuote) :
      StartTagMove c s r (do
        return .again { s with
          trees := s.trees ++ (← bump).map Tree.token, quote := toggleQuote s.quote kind, previous := kind })
  | close (hkind : r.tokenizer.peek?.map (·.kind) = some .closeAngle) :
      StartTagMove c s r (do return .done { s with trees := s.trees ++ (← bump).map Tree.token })
  | selfClose (hkind : r.tokenizer.peek?.map (·.kind) = some .slash) (hquote : s.quote = none)
      (hangle : (r.tokenizer.peekNth? 1).map (·.kind) = some .closeAngle) :
      StartTagMove c s r (do
        return .done { s with trees := s.trees ++ (← take 2).map Tree.token, selfClosing := true })
  | code (hkind : r.tokenizer.peek?.map (·.kind) = some .transition) :
      StartTagMove c s r (do
        let code ← codeTransition c
        switchTo .html
        return .again { s with trees := s.trees ++ [code], previous := .transition })
  | comment (hkind : r.tokenizer.peek?.map (·.kind) = some .commentTransition) :
      StartTagMove c s r (do
        return .again { s with trees := s.trees ++ [← razorComment], previous := .commentTransition })

/-- A turn along a start tag gives what each of its moves does. -/
theorem gives_startTagTurn {s : StartTagState} {r : Reader} {P : Turn StartTagState → Reader → Prop}
    (h : ∀ g, StartTagMove c s r g → Gives g r P) : Gives (startTagTurn c s) r P := by
  unfold startTagTurn
  rw [gives_bind, gives_kind?]
  split
  · next hnone => exact h _ (.stop (hnone ▸ List.mem_cons_self))
  · next kind hkind =>
      dsimp only
      split
      · split
        · exact h _ (.token hkind (by decide) nofun)
        · exact h _ (.close hkind)
      · rw [gives_bind, gives_kindAt?]
        split
        · next hclosed =>
            obtain ⟨hquote, hangle⟩ := Bool.and_eq_true_iff.mp hclosed
            exact h _ (.selfClose hkind (Option.isNone_iff_eq_none.mp hquote) (beq_iff_eq.mp hangle))
        · next hclosed =>
            refine h _ (.token hkind (by decide) fun _ hquote hangle => hclosed ?_)
            rw [hquote, hangle]
            rfl
      · split
        · exact h _ (.token hkind (by decide) nofun)
        · exact h _ (.stop (hkind ▸ List.mem_cons_of_mem _ List.mem_cons_self))
      · exact h _ (.mark hkind (.inl rfl))
      · exact h _ (.mark hkind (.inr rfl))
      · rw [gives_bind]
        refine escapeAhead_looks.gives fun escape => ?_
        rw [gives_bind]
        refine addressAhead_looks.gives fun address => ?_
        split
        · exact h _ (.token hkind (by decide) nofun)
        · exact h _ (.code hkind)
      · exact h _ (.comment hkind)
      · next hslash _ hdouble hsingle _ _ =>
          exact h _ (.token hkind (not_or.mpr ⟨hdouble, hsingle⟩) fun heq => absurd heq hslash)

theorem startTagTurn_advances (s : StartTagState) {r : Reader} (hc : c.Sound r.left)
    (hs : AllParsed s.trees) :
    Gives (startTagTurn c s) r
      (Advances (tokensAll ·.trees) (AllParsed ·.trees) (AllParsed ·.trees) r s) := by
  have hadd {ts : List Token} {r' : Reader} (hts : r.Reads ts r') :
      r.Adds (tokensAll s.trees) (tokensAll (s.trees ++ ts.map Tree.token)) r' ∧
        AllParsed (s.trees ++ ts.map Tree.token) := by
    rw [tokensAll_append, tokensAll_map_token]
    exact ⟨hts.adds _, hs.append (allParsed_tokens ts)⟩
  refine gives_startTagTurn fun g hmove => ?_
  cases hmove with
  | stop => exact ⟨Adds.refl r _, hs⟩
  | token hkind | mark hkind =>
      simp only [gives_bind, gives_pure]
      refine (bump_reads r).mono ?_
      rintro ts r' ⟨hts, hless, _⟩
      obtain ⟨hadds, hall⟩ := hadd hts
      exact ⟨hadds, hall, hless (hasNext_of_kind hkind)⟩
  | close =>
      simp only [gives_bind, gives_pure]
      refine (bump_reads r).mono ?_
      rintro ts r' ⟨hts, _⟩
      exact hadd hts
  | selfClose =>
      simp only [gives_bind, gives_pure]
      refine (take_reads 2 r).mono ?_
      rintro ts r' ⟨hts, _⟩
      exact hadd hts
  | code hkind =>
      simp only [gives_bind, gives_pure]
      refine (codeTransition_reads hc (hasNext_of_kind hkind)).mono ?_
      rintro code r₁ ⟨hcode, hparsed, hlt⟩
      refine (switchTo_reads .html r₁).mono fun _ r₂ hswitch => ?_
      refine ⟨?_, hs.append (.single hparsed), Nat.lt_of_le_of_lt hswitch.left hlt⟩
      simpa [Turn.value] using (hcode.trans_nil hswitch).adds (tokensAll s.trees)
  | comment hkind =>
      simp only [gives_bind, gives_pure]
      refine (razorComment_reads r).mono ?_
      rintro comment r₁ ⟨hcomment, hparsed, hless⟩
      refine ⟨?_, hs.append (.single hparsed), hless hkind⟩
      simpa [Turn.value] using hcomment.adds (tokensAll s.trees)

theorem isBranch_tagKind {kind : NodeKind} (h : kind.isBranch = true) (textTag : Bool)
    (name : Text) : (tagKind kind textTag name).isBranch = true := by
  unfold tagKind
  split
  · rfl
  · exact h

theorem isLeaf_tagKind {kind : NodeKind} (h : kind.isLeaf = true) (textTag : Bool)
    (name : Text) : (tagKind kind textTag name).isLeaf = true := by
  unfold tagKind
  split
  · rfl
  · exact h

theorem startTag_reads (textTag : Bool) {r : Reader} (hc : c.Sound r.left) :
    Gives (startTag c textTag) r (ReadsTag r) := by
  unfold startTag
  simp only [gives_bind, gives_here, gives_pure]
  refine (take_reads 2 r).mono ?_
  rintro lead r₁ ⟨hlead, hless⟩
  have hr₁ := hlead.left
  refine (gives_loop (fun s r' hle hs => startTagTurn_advances s (hc.mono (by omega)) hs)
    (allParsed_tokens lead)).mono ?_
  rintro s r₂ ⟨hloop, hall⟩
  rw [tokensAll_map_token] at hloop
  refine ⟨?_, ?_, fun hnext => Nat.lt_of_le_of_lt hloop.left (hless (by omega) hnext)⟩
  · simp only [Tag.tokens, tokens_spanning]
    exact hlead.trans_adds hloop
  · exact Tree.Parsed.branch (isBranch_tagKind rfl textTag _) hall _

theorem endTag_reads (textTag : Bool) (r : Reader) :
    Gives (endTag textTag) r (ReadsTag r) := by
  unfold endTag
  simp only [gives_bind, gives_here, gives_pure]
  refine (take_reads 2 r).mono ?_
  rintro lead r₁ ⟨hlead, hless⟩
  refine (single_reads .text r₁).mono fun named r₂ hnamed => ?_
  refine (takeTrivia_reads true r₂).mono fun blank r₃ hblank => ?_
  refine (single_reads .closeAngle r₃).mono fun closing r₄ hclosing => ?_
  have htail := hnamed.trans (hblank.trans hclosing)
  refine ⟨?_, ?_, fun hnext => Nat.lt_of_le_of_lt htail.left (hless (by omega) hnext)⟩
  · simp only [Tag.tokens, tokens_overTokens]
    simpa using hlead.trans htail
  · exact Tree.Parsed.leaf (isLeaf_tagKind rfl textTag _) _ _

theorem tag_reads (textTag : Bool) {r : Reader} (hc : c.Sound r.left) :
    Gives (tag c textTag) r (ReadsTag r) := by
  have hbump : Gives (do return .text (← bump)) r (ReadsTag r) := by
    simp only [gives_bind, gives_pure]
    refine (bump_reads r).mono ?_
    rintro ts r' ⟨hts, hless, _⟩
    exact ⟨hts, trivial, hless⟩
  have hdeclaration : Gives (do return .text (← declaration)) r (ReadsTag r) := by
    simp only [gives_bind, gives_pure]
    refine (declaration_reads r).mono ?_
    rintro ts r' ⟨hts, hless⟩
    exact ⟨hts, trivial, hless⟩
  unfold tag
  rw [gives_bind, gives_peekNth?]
  split
  · split
    · exact endTag_reads textTag r
    · rw [gives_bind, gives_kindAt?]
      split
      · simp only [gives_bind, gives_pure]
        refine (htmlComment_reads r).mono ?_
        rintro ts r' ⟨hts, hless⟩
        exact ⟨hts, trivial, hless⟩
      · exact hdeclaration
    · exact hdeclaration
    · split
      · exact startTag_reads textTag hc
      · exact hbump
    · exact hbump
  · exact hbump

/-! ## Runs of markup -/

/-- A run of markup grows by the tokens that are read, of which there is at least one if there is one
    ahead. -/
def Grows (r : Reader) (m m' : MarkupRun) (r' : Reader) : Prop :=
  r.Adds m.tokens m'.tokens r' ∧ m'.Parsed ∧ (HasNext r → r'.left < r.left)

theorem takeTag_grows (scope : MarkupScope) (m : MarkupRun) {r : Reader} (hc : c.Sound r.left)
    (hm : m.Parsed) : Gives (takeTag c scope m) r (Grows r m) := by
  unfold takeTag
  simp only [gives_bind, gives_here]
  refine (tag_reads _ hc).mono ?_
  rintro t r₁ ⟨ht, hparsed, hless⟩
  -- text before the tag has been settled, so that nothing is pending when an element is placed
  have hflush := m.pending_flush
  cases t with
  | text ts =>
      exact ⟨⟨ts, m.tokens_addText ts, ht⟩, hm.addText ts, hless⟩
  | opening name node selfClosing =>
      dsimp only
      split
      · refine ⟨⟨node.tokens, ?_, ht⟩, hm.flush.placeElement (.branch rfl (AllParsed.single hparsed) _), hless⟩
        show MarkupRun.tokens (MarkupRun.placeElement _ _) = _
        rw [MarkupRun.tokens_placeElement hflush, MarkupRun.tokens_flush]
        simp
      · refine ⟨⟨node.tokens, ?_, ht⟩, hm.flush.openElement name hparsed, hless⟩
        show MarkupRun.tokens (MarkupRun.openElement _ _ _) = _
        rw [MarkupRun.tokens_openElement hflush, MarkupRun.tokens_flush]
  | closing name node =>
      dsimp only
      split
      · next m' reports hclose =>
          obtain ⟨htokens, hm'⟩ := MarkupRun.close?_spec hclose hflush hm.flush hparsed
          rw [MarkupRun.tokens_flush] at htokens
          simp only [gives_bind, gives_pure]
          refine (reportAll_reads reports r₁).mono fun _ r₂ hreport => ?_
          refine ⟨⟨node.tokens, htokens, ht.trans_nil hreport⟩, hm', fun hnext => ?_⟩
          exact Nat.lt_of_le_of_lt hreport.left (hless hnext)
      · have hstray {r₂ : Reader} (hreport : r₁.Reads [] r₂) {place : Span} :
            Gives (pure (m.flush.placeElement (Tree.spanning .element [node] place))) r₂
              (Grows r m) := by
          refine ⟨⟨node.tokens, ?_, ht.trans_nil hreport⟩,
            hm.flush.placeElement (.branch rfl (AllParsed.single hparsed) _), fun hnext => ?_⟩
          · show MarkupRun.tokens (MarkupRun.placeElement _ _) = _
            rw [MarkupRun.tokens_placeElement hflush, MarkupRun.tokens_flush]
            simp
          · exact Nat.lt_of_le_of_lt hreport.left (hless hnext)
        split
        · simp only [gives_bind]
          exact (report_reads _ _ r₁).mono fun _ r₂ hreport => hstray hreport
        · exact hstray (Reads.refl r₁)

theorem takeTransition_grows (m : MarkupRun) {r : Reader} (hc : c.Sound r.left)
    (hnext : HasNext r) (hm : m.Parsed) : Gives (takeTransition c m) r (Grows r m) := by
  unfold takeTransition
  simp only [gives_bind]
  refine escapeAhead_looks.gives fun escape => ?_
  split
  · simp only [gives_bind, gives_nodeOver, gives_pure]
    refine (bump_reads r).mono ?_
    rintro first r₁ ⟨hfirst, hless, _⟩
    refine (bump_reads r₁).mono ?_
    rintro second r₂ ⟨hsecond, _⟩
    refine ⟨⟨first ++ second, ?_, hfirst.trans hsecond⟩,
      (hm.push (.leaf rfl first _)).addText second, fun _ => ?_⟩
    · simp
    · exact Nat.lt_of_le_of_lt hsecond.left (hless hnext)
  · simp only [gives_bind]
    refine addressAhead_looks.gives fun address => ?_
    split
    · simp only [gives_bind, gives_pure]
      refine (bump_reads r).mono ?_
      rintro ts r₁ ⟨hts, hless, _⟩
      exact ⟨⟨ts, m.tokens_addText ts, hts⟩, hm.addText ts, hless⟩
    · simp only [gives_bind, gives_pure]
      refine (codeTransition_reads hc hnext).mono ?_
      rintro t r₁ ⟨ht, hparsed, hlt⟩
      exact ⟨⟨t.tokens, m.tokens_push t, ht⟩, hm.push hparsed, fun _ => hlt⟩

theorem lineRemainder_reads (r : Reader) : Gives lineRemainder r r.Reads := by
  unfold lineRemainder
  simp only [gives_bind, gives_placeBehind, gives_kindAt?]
  split
  · exact (take_reads _ r).mono fun _ _ h => h.1
  · exact Reads.refl r

/-- What ends a section is a brace of the text. -/
theorem sectionEnd_eq_inl {offset depth n : Nat} {t : Text}
    (h : sectionEnd offset depth t = .inl n) :
    ∃ u v, t = u ++ '\x7d' :: v ∧ n = offset + Text.size u := by
  fun_induction sectionEnd offset depth t with
  | case1 => exact nomatch h
  | case2 offset depth c t hopen ih =>
      obtain ⟨u, v, rfl, rfl⟩ := ih h
      exact ⟨c :: u, v, rfl, by rw [Text.size_cons]; omega⟩
  | case3 offset c t hopen hclose =>
      refine ⟨[], t, ?_, (Sum.inl.inj h).symm⟩
      rw [beq_iff_eq.mp hclose, List.nil_append]
  | case4 offset c t hopen hclose d ih =>
      obtain ⟨u, v, rfl, rfl⟩ := ih h
      exact ⟨c :: u, v, rfl, by rw [Text.size_cons]; omega⟩
  | case5 offset depth c t hopen hclose ih =>
      obtain ⟨u, v, rfl, rfl⟩ := ih h
      exact ⟨c :: u, v, rfl, by rw [Text.size_cons]; omega⟩

/-- Text is cut before the brace that ends a section, which is no line feed. -/
theorem head?_ne_of_sectionEnd {t u v : Text} {depth n : Nat} (hend : sectionEnd 0 depth t = .inl n)
    (hcut : Text.splitAtByte? n t = some (u, v)) : v.head? ≠ some '\n' := by
  obtain ⟨u', v', rfl, hn⟩ := sectionEnd_eq_inl hend
  rw [Nat.zero_add] at hn
  rw [hn, Text.splitAtByte?_append] at hcut
  obtain ⟨-, rfl⟩ := Prod.mk.inj (Option.some.inj hcut)
  simp

theorem bumpPart_sectionEnd_reads {t : Token} {depth n : Nat} {r : Reader}
    (ht : r.tokenizer.peek? = some t) (hend : sectionEnd 0 depth t.content = .inl n) :
    Gives (bumpPart n) r r.Reads := by
  refine bumpPart_reads fun t' u v ht' hcut => ?_
  obtain rfl : t' = t := Option.some.inj (ht'.symm.trans ht)
  exact head?_ne_of_sectionEnd hend hcut

/-- The rules that a step along a run of markup comes down to, each with what is known where it does: the run ends
    behind an element or where it is, a token or part of one is taken as text, or a tree is added. -/
inductive MarkupMove (c : Surroundings) (scope : MarkupScope) (m : MarkupRun) (depth : Nat) (r : Reader) :
    Grammar (Turn (MarkupRun × Nat)) → Prop where
  | complete (hscope : scope = .element) (hcomplete : m.complete = true) :
      MarkupMove c scope m depth r (do return .done (m.addText (← lineRemainder), depth))
  | stop (hend : r.tokenizer.peek? = none ∨ scope = .section) : MarkupMove c scope m depth r (pure (.done (m, depth)))
  | text {t : Token} (n : Nat) (ht : r.tokenizer.peek? = some t)
      (hother : t.kind ∉ [.transition, .commentTransition, .openAngle]) (hdepth : scope ≠ .section → n = depth) :
      MarkupMove c scope m depth r (do return .again (m.addText (← bump), n))
  | lineEnd (hscope : scope = .line) : MarkupMove c scope m depth r (do return .done (m.addText (← bump), depth))
  | part {t : Token} {offset : Nat} (ht : r.tokenizer.peek? = some t) (hscope : scope = .section)
      (hend : sectionEnd 0 depth t.content = .inl offset) :
      MarkupMove c scope m depth r (do return .done (m.addText (← bumpPart offset), depth))
  | transition (hkind : r.tokenizer.peek?.map (·.kind) = some .transition) :
      MarkupMove c scope m depth r (do return .again (← takeTransition c m, depth))
  | comment (hkind : r.tokenizer.peek?.map (·.kind) = some .commentTransition) :
      MarkupMove c scope m depth r (do return .again (m.push (← razorComment), depth))
  | tag (hkind : r.tokenizer.peek?.map (·.kind) = some .openAngle) :
      MarkupMove c scope m depth r (do return .again (← takeTag c scope m, depth))

/-- A step along a run of markup gives what each of its moves does behind the switch to markup. -/
theorem gives_markupTurn {scope : MarkupScope} {m : MarkupRun} {depth : Nat} {r : Reader}
    {P : Turn (MarkupRun × Nat) → Reader → Prop}
    (h : Gives (switchTo .html) r fun _ r₁ => ∀ g, MarkupMove c scope m depth r₁ g → Gives g r₁ P) :
    Gives (markupTurn c scope (m, depth)) r P := by
  unfold markupTurn
  rw [gives_bind]
  refine h.mono fun _ r₁ h => ?_
  split
  · next hcomplete =>
      obtain ⟨hscope, hcomplete⟩ := Bool.and_eq_true_iff.mp (Bool.and_eq_true_iff.mp hcomplete).1
      exact h _ (.complete (of_decide_eq_true hscope) hcomplete)
  · rw [gives_bind, gives_peek?]
    split
    · next hnone => exact h _ (.stop (.inl hnone))
    · next t ht =>
        have hkind {kind : TokenKind} (heq : t.kind = kind) : r₁.tokenizer.peek?.map (·.kind) = some kind := by
          rw [ht, Option.map_some, heq]
        split
        · next heq => exact h _ (.transition (hkind heq))
        · next heq => exact h _ (.comment (hkind heq))
        · next heq => exact h _ (.tag (hkind heq))
        · next heq =>
            split
            · next hscope => exact h _ (.lineEnd hscope)
            · exact h _ (.text _ ht (by rw [heq]; decide) fun _ => rfl)
        · next heq =>
            split
            · next hscope =>
                split
                · exact h _ (.text _ ht (by rw [heq]; decide) fun hne => absurd hscope hne)
                · exact h _ (.stop (.inr hscope))
                · next hend => exact h _ (.part ht hscope hend)
            · exact h _ (.text _ ht (by rw [heq]; decide) fun _ => rfl)
        · next htransition hcomment hangle _ _ =>
            refine h _ (.text _ ht ?_ fun _ => rfl)
            simp only [List.mem_cons, List.not_mem_nil, or_false, not_or]
            exact ⟨htransition, hcomment, hangle⟩

theorem markupTurn_advances (scope : MarkupScope) (s : MarkupRun × Nat) {r : Reader}
    (hc : c.Sound r.left) (hs : s.1.Parsed) :
    Gives (markupTurn c scope s) r
      (Advances (·.1.tokens) (·.1.Parsed) (·.1.Parsed) r s) := by
  obtain ⟨m, depth⟩ := s
  refine gives_markupTurn ((switchTo_reads .html r).mono fun _ r₁ hswitch g hmove => ?_)
  have hr₁ := hswitch.left
  have hc₁ := hc.mono hr₁
  have htext {ts : List Token} {r₂ : Reader} (hts : r₁.Reads ts r₂) :
      r.Adds m.tokens (m.addText ts).tokens r₂ :=
    ⟨ts, m.tokens_addText ts, hswitch.trans hts⟩
  have hgrows {m' : MarkupRun} {n : Nat} {r₂ : Reader} (hnext : HasNext r₁)
      (h : Grows r₁ m m' r₂) :
      Advances (·.1.tokens) (·.1.Parsed) (·.1.Parsed) r (m, depth) (.again (m', n)) r₂ :=
    ⟨h.1.nil_trans hswitch, h.2.1, Nat.lt_of_lt_of_le (h.2.2 hnext) hr₁⟩
  cases hmove with
  | complete =>
      simp only [gives_bind, gives_pure]
      exact (lineRemainder_reads r₁).mono fun ts r₂ hts => ⟨htext hts, hs.addText ts⟩
  | stop => exact ⟨(Adds.refl r₁ m.tokens).nil_trans hswitch, hs⟩
  | text n ht =>
      simp only [gives_bind, gives_pure]
      refine (bump_reads r₁).mono ?_
      rintro ts r₂ ⟨hts, hless, _⟩
      exact ⟨htext hts, hs.addText ts, Nat.lt_of_lt_of_le (hless (hasNext_of_peekNth (n := 0) ht)) hr₁⟩
  | lineEnd =>
      simp only [gives_bind, gives_pure]
      refine (bump_reads r₁).mono ?_
      rintro ts r₂ ⟨hts, _⟩
      exact ⟨htext hts, hs.addText ts⟩
  | part ht _ hend =>
      simp only [gives_bind, gives_pure]
      exact (bumpPart_sectionEnd_reads ht hend).mono fun ts r₂ hts => ⟨htext hts, hs.addText ts⟩
  | transition hkind =>
      have hnext := hasNext_of_kind hkind
      simp only [gives_bind, gives_pure]
      exact (takeTransition_grows m hc₁ hnext hs).mono fun _ _ h => hgrows hnext h
  | comment hkind =>
      simp only [gives_bind, gives_pure]
      refine (razorComment_reads r₁).mono ?_
      rintro t r₂ ⟨ht, hparsed, hless⟩
      exact hgrows (hasNext_of_kind hkind) ⟨⟨t.tokens, m.tokens_push t, ht⟩, hs.push hparsed, fun _ => hless hkind⟩
  | tag hkind =>
      simp only [gives_bind, gives_pure]
      exact (takeTag_grows scope m hc₁ hs).mono fun _ _ h => hgrows (hasNext_of_kind hkind) h

/-- Where an element is to be read, the first turn always asks for another one. -/
theorem markupTurn_element_again {m : MarkupRun} (depth : Nat) {r : Reader}
    (hrest : r.tokenizer.rest ≠ []) (hm : m.complete = false) :
    Gives (markupTurn c .element (m, depth)) r fun t _ => ∃ s, t = .again s := by
  refine gives_markupTurn ((switchTo_reads .html r).mono fun _ r₁ hswitch g hmove => ?_)
  rw [← hswitch.rest_eq] at hrest
  cases hmove with
  | complete _ hcomplete => exact nomatch hm.symm.trans hcomplete
  | stop hend =>
      rcases hend with hnone | hscope
      · exact absurd (rest_of_peek_eq_none hnone) hrest
      · exact nomatch hscope
  | lineEnd hscope => exact nomatch hscope
  | part _ hscope => exact nomatch hscope
  | text | transition | comment | tag => exact ⟨_, rfl⟩

/-- A run of markup reads what it gives; an element is not empty. -/
theorem markupRun_reads (scope : MarkupScope) {r : Reader} (hc : c.Sound r.left) :
    Gives (markupRun c scope) r fun trees r' =>
      r.Reads (tokensAll trees) r' ∧ AllParsed trees ∧
        (scope = .element → r.tokenizer.rest ≠ [] → r'.left < r.left) := by
  have hstart : MarkupRun.Parsed {} := ⟨allParsed_nil, fun e he => nomatch he⟩
  have hturn (s : MarkupRun × Nat) (r' : Reader) (hle : r'.left ≤ r.left) (hs : s.1.Parsed) :=
    markupTurn_advances scope s (hc.mono hle) hs
  unfold markupRun
  simp only [gives_bind]
  refine (gives_loop_left (a := (({}, 0) : MarkupRun × Nat))
    (q := scope = .element ∧ r.tokenizer.rest ≠ []) hturn hstart ?_).mono ?_
  · rintro ⟨rfl, hrest⟩
    have hagain := markupTurn_element_again (c := c) (m := {}) 0 hrest rfl
    have hstep := hturn ({}, 0) r (Nat.le_refl _) hstart
    unfold Gives at hagain hstep ⊢
    obtain ⟨s, hs⟩ := hagain
    rw [hs] at hstep
    exact hstep.2.2
  · rintro ⟨m, depth⟩ r₁ ⟨hloop, hs, hless⟩
    obtain ⟨htokens, hall⟩ := MarkupRun.finish_spec hs
    simp only [gives_pure]
    refine (reportAll_reads _ r₁).mono fun _ r₂ hreport => ?_
    refine ⟨?_, hall, fun hscope hrest => ?_⟩
    · rw [htokens]
      exact adds_nil.mp (hloop.trans_nil hreport)
    · exact Nat.lt_of_le_of_lt hreport.left (hless ⟨hscope, hrest⟩)

/-- In a document, the turn that asks for no other one is at its end. -/
theorem markupTurn_document_end (s : MarkupRun × Nat) (r : Reader) :
    Gives (markupTurn c .document s) r fun t r' =>
      (∃ s, t = .again s) ∨ r'.tokenizer.rest = [] := by
  obtain ⟨m, depth⟩ := s
  refine gives_markupTurn ((switchTo_reads .html r).mono fun _ r₁ _ g hmove => ?_)
  cases hmove with
  | complete hscope => exact nomatch hscope
  | stop hend =>
      rcases hend with hnone | hscope
      · exact Or.inr (rest_of_peek_eq_none hnone)
      · exact nomatch hscope
  | lineEnd hscope => exact nomatch hscope
  | part _ hscope => exact nomatch hscope
  | text | transition | comment | tag => exact Or.inl ⟨_, rfl⟩

theorem markupRun_document_rest {r : Reader} (hc : c.Sound r.left) :
    Gives (markupRun c .document) r fun _ r' => r'.tokenizer.rest = [] := by
  have hstart : MarkupRun.Parsed {} := ⟨allParsed_nil, fun e he => nomatch he⟩
  unfold markupRun
  simp only [gives_bind, gives_pure]
  refine (gives_loop_end (a := (({}, 0) : MarkupRun × Nat)) (fun s r' hle hs =>
    markupTurn_advances .document s (hc.mono hle) hs) markupTurn_document_end hstart).mono
    fun s r₁ hrest => ?_
  refine (reportAll_reads _ r₁).mono fun _ r₂ hreport => ?_
  rw [hreport.rest_eq, hrest]

end

/-! ## Markup inside of code -/

/-- The surroundings of the code in markup that starts at a reader. They read markup by the same rule, but only
    where less is left than there; elsewhere they stall. -/
def around (fileKind : FileKind) (r : Reader) : Surroundings where
  fileKind
  markup scope r' := if r'.left < r.left then markup fileKind scope r' else ([], { r' with stalled := true })

section

variable {fileKind : FileKind} {scope : MarkupScope} {r r' : Reader} {P : List Tree → Reader → Prop}

theorem gives_markup :
    Gives (markup fileKind scope) r P ↔ Gives (markupRun (around fileKind r) scope) r P := by
  unfold Gives
  rw [markup]
  rfl

theorem gives_around_of_lt (h : r'.left < r.left) :
    Gives ((around fileKind r).markup scope) r' P ↔ Gives (markup fileKind scope) r' P := by
  unfold Gives around
  dsimp only
  rw [if_pos h]

/-- What holds of the rule for markup where less is left, and of a reader that stalls. -/
theorem gives_around (h : r'.left < r.left → Gives (markup fileKind scope) r' P)
    (hstalled : P [] { r' with stalled := true }) : Gives ((around fileKind r).markup scope) r' P := by
  by_cases hlt : r'.left < r.left
  · exact (gives_around_of_lt hlt).mpr (h hlt)
  · unfold Gives around
    dsimp only
    rw [if_neg hlt]
    exact hstalled

/-- What a run of markup gives whenever the rule for markup gives it where less is left, that rule gives
    everywhere. -/
theorem gives_markup_of_run {P : MarkupScope → Reader → List Tree → Reader → Prop}
    (h : ∀ scope r, (∀ inner r', r'.left < r.left → Gives (markup fileKind inner) r' (P inner r')) →
      Gives (markupRun (around fileKind r) scope) r (P scope r)) :
    Gives (markup fileKind scope) r (P scope r) := by
  induction hn : r.left using Nat.strongRecOn generalizing r scope with
  | ind n ih =>
      subst hn
      exact gives_markup.mpr (h scope r fun inner r' hlt => ih r'.left hlt rfl)

end

/-- The rule for markup reads what it builds. -/
theorem markup_reads (fileKind : FileKind) (scope : MarkupScope) (r : Reader) :
    Gives (markup fileKind scope) r fun trees r' =>
      r.Reads (tokensAll trees) r' ∧ AllParsed trees ∧
        (scope = .element → r.tokenizer.rest ≠ [] → r'.left < r.left) := by
  refine gives_markup_of_run (P := fun scope r trees r' => r.Reads (tokensAll trees) r' ∧ AllParsed trees ∧
    (scope = .element → r.tokenizer.rest ≠ [] → r'.left < r.left)) fun scope r ih => ?_
  exact markupRun_reads scope fun inner r' hlt => (gives_around_of_lt hlt).mpr (ih inner r' hlt)

/-- Around code, markup is read wherever less is left than at its start. -/
theorem around_sound (fileKind : FileKind) (r : Reader) : (around fileKind r).Sound r.left :=
  fun inner r' hlt => (gives_around_of_lt hlt).mpr (markup_reads fileKind inner r')

/-- A whole document is read to its end. -/
theorem markup_document_rest (fileKind : FileKind) (r : Reader) :
    Gives (markup fileKind .document) r fun _ r' => r'.tokenizer.rest = [] :=
  gives_markup.mpr (markupRun_document_rest (around_sound fileKind r))

end Grammar

end RazorLang
