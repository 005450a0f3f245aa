import RazorLang.Proofs.Grammar.DirectiveDerivation
import RazorLang.Proofs.Grammar.Escapes

/-!
# Derivations of tags

The rules for tags make derivations, and nodes that say of themselves what the rules have found: what a tag
is called, and whether a start tag closes its element itself (`IsOpening`, `IsClosing`).

An end tag is read before it is known which elements it closes, and the reports of those that it leaves
without an end tag come first in a derivation; so its node is derived whatever has been reported.

Main statement: `tag_derives` — what the next `<` begins is derived, a node or tokens.
-/

namespace RazorLang

open RazorLang.Tree Reader

namespace Tree

/-- The node of a start tag of a name. -/
structure IsOpening (textTag : Bool) (name : Text) (selfClosing : Bool) (t : Tree) : Prop where
  kind : t.kind? = some (Grammar.tagKind .startTag textTag name)
  opens : t.opensElement = true
  tagName : t.tagName = name
  closesItself : t.closesItself = selfClosing
  lead : ∃ u ∈ t.children.head?.bind token?, u.content ≠ []

/-- The node of an end tag of a name. -/
structure IsClosing (textTag : Bool) (name : Text) (t : Tree) : Prop where
  kind : t.kind? = some (Grammar.tagKind .endTag textTag name)
  closes : t.closesElement = true
  tagName : t.tagName = name
  lead : ∃ u ∈ t.children.head?.bind token?, u.content ≠ []

/-- A node between the quotes of a start tag is passed over. -/
theorem TagEnd.next_node (e : TagEnd) {t : Tree} {kind : NodeKind} (h : t.kind? = some kind) :
    e.next t = { quote := e.quote } := by
  cases t with
  | token t => exact nomatch h
  | node => rfl

/-- Most tokens of a start tag are passed over. -/
theorem TagEnd.next_token (e : TagEnd) {t : Token}
    (h : t.kind ∉ [.doubleQuote, .singleQuote, .slash, .closeAngle]) :
    e.next (token t) = { quote := e.quote } := by
  simp only [List.mem_cons, List.not_mem_nil, or_false, not_or] at h
  obtain ⟨hdouble, hsingle, hslash, hangle⟩ := h
  rw [TagEnd.next]
  split
  · next hkind => exact absurd hkind hdouble
  · next hkind => exact absurd hkind hsingle
  · next hkind => exact absurd hkind hslash
  · next hkind => exact absurd hkind hangle
  · rfl

theorem TagEnd.next_slash (e : TagEnd) {t : Token} (h : t.kind = .slash) :
    e.next (token t) = { quote := e.quote, slash := e.quote.isNone } := by rw [TagEnd.next, h]

theorem TagEnd.next_closeAngle (e : TagEnd) {t : Token} (h : t.kind = .closeAngle) :
    e.next (token t) = { quote := e.quote, closed := e.slash } := by rw [TagEnd.next, h]

theorem TagEnd.next_quote (e : TagEnd) {t : Token} (h : t.kind = .doubleQuote ∨ t.kind = .singleQuote) :
    e.next (token t) = { quote := Grammar.toggleQuote e.quote t.kind } := by
  rcases h with h | h
  · rw [TagEnd.next, h]
  · rw [TagEnd.next, h]

/-- A tag of a kind, or what stands for it, is one by its first two tokens. -/
theorem beginsTag_of_tagKind {kind : NodeKind} {second : TokenKind} {textTag : Bool} {name : Text} {t : Tree}
    (hkind : t.kind? = some (Grammar.tagKind kind textTag name)) {mark next : Token} {more : List Token}
    (htokens : t.ownTokens = mark :: next :: more) (hmark : mark.kind = .openAngle) (hnext : next.kind = second) :
    t.beginsTag kind second = true := by
  have hstands : (t.kind? == some kind || t.kind? == some .markupEphemeral) = true := by
    rw [hkind, Grammar.tagKind]
    split
    · simp
    · simp
  rw [beginsTag, hstands, htokens, List.map_cons, List.map_cons, hmark, hnext]
  simp

end Tree

namespace Grammar

variable {c : Surroundings} {r r' r₀ : Reader} {lead : List Token} {s : StartTagState}

/-- Behind the next token, the one after it is next. -/
theorem bump_peek (r : Reader) :
    Gives bump r fun _ r' => r'.tokenizer.peek? = r.tokenizer.peekNth? 1 := peekNth?_bump r 0

/-- The next two tokens are taken as they are. -/
theorem take_kinds {kind second : TokenKind} (hkind : r.tokenizer.peek?.map (·.kind) = some kind)
    (hsecond : (r.tokenizer.peekNth? 1).map (·.kind) = some second) :
    Gives (take 2) r fun ts r' => ∃ t u, ts = [t, u] ∧ t.kind = kind ∧ u.kind = second ∧ r.Passes ts r' := by
  rw [take, gives_bind]
  refine ((bump_kind hkind).and (bump_peek r)).mono ?_
  rintro ts r₁ ⟨⟨t, rfl, ht, hpasses, -⟩, hpeek⟩
  rw [← hpeek] at hsecond
  rw [gives_bind, take, gives_bind]
  refine (bump_kind hsecond).mono ?_
  rintro us r₂ ⟨u, rfl, hu, hpasses', -⟩
  exact ⟨t, u, rfl, ht, hu, hpasses.trans hpasses'⟩

theorem take_content {kind : TokenKind} (h : r.tokenizer.peek?.map (·.kind) = some kind)
    (hkind : kind ≠ .commentBody) : Gives (take 2) r fun ts _ => ∀ t ∈ ts.head?, t.content ≠ [] := by
  rw [take, gives_bind]
  refine ((bump_content h hkind).and (bump_kind h)).mono ?_
  rintro ts r₁ ⟨hcontent, t, rfl, -⟩
  exact fun u hu => hcontent u (List.mem_singleton.mpr (Option.some.inj hu).symm)

/-- A token of a kind is taken if it is next. -/
theorem single_kind (kind : TokenKind) (r : Reader) :
    Gives (single kind) r fun ts r' => r.Passes ts r' ∧ (ts = [] ∨ ∃ t, ts = [t] ∧ t.kind = kind) := by
  unfold single
  rw [gives_bind, gives_isAt]
  split
  · next hkind =>
      refine (bump_kind (beq_iff_eq.mp hkind)).mono ?_
      rintro ts r' ⟨t, rfl, ht, hpasses, -⟩
      exact ⟨hpasses, .inr ⟨t, rfl, ht⟩⟩
  · exact ⟨.refl r, .inl rfl⟩

/-- Only tokens of the kinds that are asked for are taken. -/
theorem takeWhile_kinds (p : TokenKind → Bool) (r : Reader) :
    Gives (takeWhile p) r fun ts _ => ∀ t ∈ ts, p t.kind = true := by
  refine gives_loop_keeps (I := fun (ts : List Token) _ => ∀ t ∈ ts, p t.kind = true) (fun _ _ h => h)
    (fun ts r' h => ?_) (fun _ h => absurd h List.not_mem_nil)
  rw [gives_bind, gives_kind?]
  split
  · exact h
  · next kind hkind =>
      split
      · next hp =>
          rw [gives_bind]
          refine (bump_kind hkind).mono ?_
          rintro taken r'' ⟨t, rfl, rfl, -⟩ u hu
          rcases List.mem_append.mp hu with hu | hu
          · exact h u hu
          · rw [List.mem_singleton.mp hu]
            exact hp
      · exact h

theorem isSimple_tagKind {kind : NodeKind} (h : kind.isSimple = true) (textTag : Bool) (name : Text) :
    (tagKind kind textTag name).isSimple = true := by
  unfold tagKind
  split
  · rfl
  · exact h

/-! ## Start tags -/

/-- How a tag, which stands in its element, has been read: an end tag whatever has been reported before it. -/
def TagDerived (textTag : Bool) (r : Reader) : Tag → Reader → Prop
  | .opening name t selfClosing, r' => Derives true r [t] r' ∧ t.IsOpening textTag name selfClosing
  | .closing name t, r' =>
    (∀ reports, Derives true (r.note reports) [t] (r'.note reports)) ∧ t.IsClosing textTag name
  | .text ts, r' => r.Passes ts r'

/-- How a start tag can have been read. -/
structure StartTagRead (r₀ : Reader) (lead : List Token) (s : StartTagState) (r : Reader) : Prop where
  derives : Derives false r₀ s.trees r
  begins : lead.map .token <+: s.trees
  closed : (tagEnd s.trees).closed = s.selfClosing

/-- How far a start tag has been read. -/
structure StartTagAt (r₀ : Reader) (lead : List Token) (s : StartTagState) (r : Reader) : Prop
    extends StartTagRead r₀ lead s r where
  quote : (tagEnd s.trees).quote = s.quote
  /-- A slash that is followed by `>` has been taken together with it. -/
  slash : (tagEnd s.trees).slash = true → r.tokenizer.peek?.map (·.kind) ≠ some .closeAngle
  unclosed : s.selfClosing = false

/-- Behind one more tree. -/
theorem StartTagAt.add (h : StartTagAt r₀ lead s r) {t : Tree} (ht : Derives false r [t] r')
    {s' : StartTagState} (htrees : s'.trees = s.trees ++ [t]) (hsame : s'.selfClosing = s.selfClosing)
    (slash : Bool) (hnext : (tagEnd s.trees).next t = { quote := s'.quote, slash })
    (hslash : slash = true → r'.tokenizer.peek?.map (·.kind) ≠ some .closeAngle) :
    StartTagAt r₀ lead s' r' where
  derives := htrees ▸ h.derives.append ht
  begins := htrees ▸ h.begins.trans (List.prefix_append _ _)
  closed := by rw [htrees, tagEnd_concat, hnext, hsame, h.unclosed]
  quote := by rw [htrees, tagEnd_concat, hnext]
  slash := by
    rw [htrees, tagEnd_concat, hnext]
    exact hslash
  unclosed := hsame.trans h.unclosed

/-- A turn leads on in a start tag, or to its end. -/
abbrev StartTagStep (r₀ : Reader) (lead : List Token) (r : Reader) : Turn StartTagState → Reader → Prop :=
  Turn.Steps (StartTagAt r₀ lead) (StartTagRead r₀ lead) r

section Token

variable (h : StartTagAt r₀ lead s r) {kind : TokenKind} (hkind : r.tokenizer.peek?.map (·.kind) = some kind)

include h hkind

/-- One more token, which leaves a quote open or not, and which may be a slash. -/
theorem takeToken_startTag {quote : Option TokenKind} (slash : Bool)
    (hnext : ∀ t : Token, t.kind = kind → (tagEnd s.trees).next (.token t) = { quote, slash })
    (hslash : slash = true → (r.tokenizer.peekNth? 1).map (·.kind) ≠ some .closeAngle) :
    Gives (do
      return Turn.again { s with trees := s.trees ++ (← bump).map Tree.token, quote, previous := kind }) r
      (StartTagStep r₀ lead r) := by
  rw [gives_bind]
  refine ((bump_kind hkind).and (bump_peek r)).mono ?_
  rintro ts r' ⟨⟨t, rfl, ht, hpasses, hless⟩, hpeek⟩
  refine ⟨h.add (.read hpasses) rfl rfl slash (hnext t ht) fun hs => ?_, hless⟩
  rw [hpeek]
  exact hslash hs

/-- One more token that is neither a quote nor part of the end. -/
theorem takeOther_startTag (hother : kind ∉ [.doubleQuote, .singleQuote, .slash, .closeAngle]) :
    Gives (do
      return Turn.again
        { s with trees := s.trees ++ (← bump).map Tree.token, quote := s.quote, previous := kind }) r
      (StartTagStep r₀ lead r) := by
  refine takeToken_startTag h hkind false (fun t ht => ?_) nofun
  rw [TagEnd.next_token _ (ht ▸ hother), h.quote]

theorem takeQuote_startTag (hmark : kind = .doubleQuote ∨ kind = .singleQuote) :
    Gives (do
      return Turn.again { s with
        trees := s.trees ++ (← bump).map Tree.token, quote := toggleQuote s.quote kind, previous := kind }) r
      (StartTagStep r₀ lead r) := by
  refine takeToken_startTag h hkind false (fun t ht => ?_) nofun
  rw [TagEnd.next_quote _ (ht ▸ hmark), h.quote, ht]

end Token

theorem startTagTurn_steps (hc : c.Faithful) (hsound : c.Sound r.left) (h : StartTagAt r₀ lead s r) :
    Gives (startTagTurn c s) r (StartTagStep r₀ lead r) := by
  -- a slash before a closing angle would have been taken with it
  have hangle (hkind : r.tokenizer.peek?.map (·.kind) = some .closeAngle) (t : Token) (ht : t.kind = .closeAngle) :
      (tagEnd s.trees).next (.token t) = { quote := s.quote } := by
    have hslash : (tagEnd s.trees).slash = false := Bool.not_eq_true _ ▸ fun hs => h.slash hs hkind
    rw [TagEnd.next_closeAngle _ ht, h.quote, hslash]
  refine gives_startTagTurn fun g hmove => ?_
  cases hmove with
  | stop => exact h.toStartTagRead
  | @token kind hkind hmark hopen =>
      by_cases hclose : kind = .closeAngle
      · subst hclose
        exact takeToken_startTag h hkind false (hangle hkind) nofun
      · by_cases hslash : kind = .slash
        · subst hslash
          refine takeToken_startTag h hkind s.quote.isNone (fun t ht => ?_) fun hquote => ?_
          · rw [TagEnd.next_slash _ ht, h.quote]
          · exact hopen rfl (Option.isNone_iff_eq_none.mp hquote)
        · refine takeOther_startTag h hkind ?_
          obtain ⟨hdouble, hsingle⟩ := not_or.mp hmark
          simp only [List.mem_cons, List.not_mem_nil, or_false, not_or]
          exact ⟨hdouble, hsingle, hslash, hclose⟩
  | mark hkind hmark => exact takeQuote_startTag h hkind hmark
  | close hkind =>
      rw [gives_bind]
      refine (bump_kind hkind).mono ?_
      rintro ts r' ⟨t, rfl, ht, hpasses, -⟩
      have hadd : StartTagAt r₀ lead { s with trees := s.trees ++ [.token t] } r' :=
        h.add (.read hpasses) rfl rfl false (hangle hkind t ht) nofun
      exact hadd.toStartTagRead
  | selfClose hkind hquote hclose =>
      rw [gives_bind]
      refine (take_kinds hkind hclose).mono ?_
      rintro ts r' ⟨t, u, rfl, ht, hu, hpasses⟩
      refine ⟨h.derives.append (.read hpasses), h.begins.trans (List.prefix_append _ _), ?_⟩
      show (tagEnd (s.trees ++ [.token t, .token u])).closed = true
      rw [List.append_cons, tagEnd_concat, tagEnd_concat, TagEnd.next_slash _ ht, h.quote, hquote,
        TagEnd.next_closeAngle _ hu]
      rfl
  | code hkind =>
      rw [gives_bind]
      refine ((codeTransition_derives hc hsound hkind false).and
        ((codeTransition_reads hsound (hasNext_of_kind hkind)).and (codeTransition_kind c r))).mono ?_
      rintro code r₁ ⟨hcode, ⟨-, -, hless⟩, hblock⟩
      rw [gives_bind]
      refine (switchTo_passes .html r₁).mono fun _ r₂ hswitch => ?_
      refine ⟨h.add (hcode.pass hswitch) rfl rfl false ?_ nofun, ?_⟩
      · rw [TagEnd.next_node _ hblock, h.quote]
      · exact Nat.lt_of_le_of_lt hswitch.left hless
  | comment hkind =>
      rw [gives_bind]
      refine ((razorComment_derives false r).and (razorComment_reads r)).mono ?_
      rintro comment r₁ ⟨⟨hcomment, hnode⟩, -, -, hless⟩
      refine ⟨h.add hcomment rfl rfl false ?_ nofun, hless hkind⟩
      rw [TagEnd.next_node _ hnode, h.quote]

/-- A start tag is read, and its node is derived. -/
theorem startTag_derives (hc : c.Faithful) (textTag : Bool) (hsound : c.Sound r.left)
    (hmark : r.tokenizer.peek?.map (·.kind) = some .openAngle)
    (hname : (r.tokenizer.peekNth? 1).map (·.kind) = some .text) :
    Gives (startTag c textTag) r (TagDerived textTag r) := by
  unfold startTag
  simp only [gives_bind, gives_here, gives_pure]
  refine ((take_kinds hmark hname).and (take_content hmark (by decide))).mono ?_
  rintro lead r₁ ⟨⟨mark, first, rfl, hmark, hfirst, hpasses⟩, hcontent⟩
  have hangle : tagEnd [.token mark] = {} :=
    TagEnd.next_token {} (by rw [hmark]; decide)
  have hlead : tagEnd [.token mark, .token first] = {} := by
    rw [← List.singleton_append, tagEnd_concat, hangle]
    exact TagEnd.next_token {} (by rw [hfirst]; decide)
  have hstart : StartTagAt r [mark, first] { trees := [.token mark, .token first] } r₁ := by
    refine ⟨⟨.read hpasses, List.prefix_rfl, congrArg TagEnd.closed hlead⟩, congrArg TagEnd.quote hlead, ?_, rfl⟩
    exact fun hslash => absurd ((congrArg TagEnd.slash hlead).symm.trans hslash) Bool.false_ne_true
  refine (gives_loop_until
    (fun s r' h => startTagTurn_steps hc (hsound.mono h.derives.left) h) hstart).mono ?_
  rintro s r₂ ⟨hderives, ⟨more, htrees⟩, hclosed⟩
  refine ⟨hderives.simple (isSimple_tagKind rfl ..), ?_⟩
  have htokens : ownTokens (Tree.spanning (tagKind .startTag textTag (tagName [mark, first])) s.trees
      (Span.empty r.tokenizer.path r.tokenizer.place)) = mark :: first :: more.filterMap token? := by
    show s.trees.filterMap token? = _
    rw [← htrees]
    rfl
  have hlead : ∃ u ∈ s.trees.head?.bind token?, u.content ≠ [] :=
    ⟨mark, by rw [← htrees]; rfl, hcontent mark rfl⟩
  refine ⟨rfl, beginsTag_of_tagKind rfl htokens hmark hfirst, ?_, hclosed, hlead⟩
  rw [Tree.tagName, htokens]
  simp [tagName, hmark, hfirst]

/-! ## End tags -/

/-- A tag is called what its first text says. -/
theorem tagName_skip {ts : List Token} (h : ∀ t ∈ ts, t.kind ≠ .text) (us : List Token) :
    tagName (ts ++ us) = tagName us := by
  have hnone : ts.find? (·.kind == .text) = none := by
    rw [List.find?_eq_none]
    exact fun t ht hkind => h t ht (beq_iff_eq.mp hkind)
  rw [tagName, List.find?_append, hnone, Option.none_or, tagName]

/-- An end tag is read, and its node is derived whatever has been reported. -/
theorem endTag_derives (textTag : Bool) (hmark : r.tokenizer.peek?.map (·.kind) = some .openAngle)
    (hslash : (r.tokenizer.peekNth? 1).map (·.kind) = some .slash) :
    Gives (endTag textTag) r (TagDerived textTag r) := by
  unfold endTag
  simp only [gives_bind, gives_here, gives_pure]
  refine ((take_kinds hmark hslash).and (take_content hmark (by decide))).mono ?_
  rintro lead r₁ ⟨⟨mark, slash, rfl, hmark, hslash, hlead⟩, hcontent⟩
  refine (single_kind .text r₁).mono ?_
  rintro named r₂ ⟨hnamed, hname⟩
  refine ((takeTrivia_passes true r₂).and (takeWhile_kinds _ r₂)).mono ?_
  rintro blank r₃ ⟨hblank, htrivia⟩
  refine (single_kind .closeAngle r₃).mono ?_
  rintro closing r₄ ⟨hclosing, hclose⟩
  have hall := ((hlead.trans hnamed).trans hblank).trans hclosing
  refine ⟨fun reports => Gathers.node (.read (hall.note reports)) (isSimple_tagKind rfl ..), ?_⟩
  refine ⟨rfl, beginsTag_of_tagKind rfl (ownTokens_overTokens ..) hmark hslash, ?_, mark, rfl, hcontent mark rfl⟩
  have hrest : ∀ t ∈ blank ++ closing, t.kind ≠ .text := by
    intro t ht hkind
    rcases List.mem_append.mp ht with ht | ht
    · have hp := htrivia t ht
      rw [hkind] at hp
      exact Bool.false_ne_true hp
    · rcases hclose with rfl | ⟨u, rfl, hu⟩
      · exact List.not_mem_nil ht
      · rw [List.mem_singleton.mp ht, hu] at hkind
        exact absurd hkind (by decide)
  rw [Tree.tagName, ownTokens_overTokens, List.append_assoc, List.append_assoc, tagName_skip]
  · rcases hname with rfl | ⟨t, rfl, ht⟩
    · rw [List.nil_append, ← List.append_nil (blank ++ closing), tagName_skip hrest]
      rfl
    · simp [tagName, ht, contentOf]
  · simp [hmark, hslash]

/-! ## What begins with `<` -/

theorem declaration_silent : Silent declaration := by
  refine silent_loop (fun ts => bump_silent.bind fun taken => ?_) []
  split
  · exact silent_pure _
  · exact silent_ite (silent_pure _) (silent_pure _)

theorem htmlComment_silent : Silent htmlComment := by
  refine (take_silent 3).bind fun lead => silent_loop (fun ts => bump_silent.bind fun taken => ?_) lead
  split
  · exact silent_pure _
  · refine silent_look (fun _ => rfl) fun _ => ?_
    exact silent_ite (bump_silent.bind fun _ => silent_pure _) (silent_pure _)

/-- What begins with the next `<` is read, and its node is derived. -/
theorem tag_derives (hc : c.Faithful) (textTag : Bool) (hsound : c.Sound r.left)
    (hmark : r.tokenizer.peek?.map (·.kind) = some .openAngle) :
    Gives (tag c textTag) r (TagDerived textTag r) := by
  -- tokens that are no tag
  have htext {g : Grammar (List Token)} (hg : Gives g r fun ts r' => r.Passes ts r') :
      Gives (do return .text (← g)) r (TagDerived textTag r) := by
    rw [gives_bind]
    exact hg
  have hdeclaration := htext (gives_passes (f := id) (declaration_reads r) declaration_silent)
  unfold tag
  rw [gives_bind, gives_peekNth?]
  split
  · next t ht =>
      have hnext {kind : TokenKind} (hkind : t.kind = kind) :
          (r.tokenizer.peekNth? 1).map (·.kind) = some kind := by rw [ht, Option.map_some, hkind]
      split
      · next hkind => exact endTag_derives textTag hmark (hnext hkind)
      · rw [gives_bind, gives_kindAt?]
        split
        · exact htext (gives_passes (f := id) (htmlComment_reads r) htmlComment_silent)
        · exact hdeclaration
      · exact hdeclaration
      · next hkind =>
          split
          · exact startTag_derives hc textTag hsound hmark (hnext hkind)
          · exact htext (bump_passes r)
      · exact htext (bump_passes r)
  · exact htext (bump_passes r)

end Grammar

end RazorLang
