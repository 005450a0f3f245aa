import RazorLang.Proofs.Grammar.MarkupPlacing
import RazorLang.Proofs.Grammar.PlainMarkup

/-!
# Doubled transitions in start tags

In the text of markup, both transitions of `@@` are taken at once. The rule for start tags takes one token at
a time: of a run of transitions it takes all but the last as they are, each because another one follows it,
and then the last one leads to code (`startTag_code_of_pair`). A start tag without `@` has no code in it, so
that among the start tags all of whose `@` come in pairs, those without `@` are those without code
(`IsStartTag.code_iff`).
-/

namespace RazorLang

open RazorLang.Tree RazorLang.Grammar Reader

/-! ## Transitions in a text -/

/-- All `@` of a text come in pairs, and no star follows a pair: a run of `@` is of even length, and no star
    comes behind it. -/
def Text.atSignsPaired : Text → Bool
  | [] => true
  | '@' :: '@' :: t => t.head? != some '*' && atSignsPaired t
  | '@' :: _ => false
  | _ :: t => atSignsPaired t

/-- The first `@` of a text is followed by another one. -/
def Text.LeadsWithPair (t : Text) : Prop := ['@', '@'] <+: t.dropWhile (· != '@')

namespace Text

variable {t u v : Text}

theorem leadsWithPair_of_paired (h : t.atSignsPaired = true) (hat : '@' ∈ t) : t.LeadsWithPair := by
  fun_induction atSignsPaired t with
  | case1 => exact absurd hat List.not_mem_nil
  | case2 t ih => exact ⟨t, rfl⟩
  | case3 t _ => exact nomatch h
  | case4 c t _ hc ih =>
      have hne : c ≠ '@' := hc
      have hmem : '@' ∈ t := (List.mem_cons.mp hat).resolve_left fun heq => hne heq.symm
      rw [LeadsWithPair, List.dropWhile_cons_of_pos (p := (· != '@')) (bne_iff_ne.mpr hne)]
      exact ih h hmem

theorem LeadsWithPair.of_append (h : (u ++ v).LeadsWithPair) (hu : '@' ∉ u) : v.LeadsWithPair := by
  have hnone : ∀ c ∈ u, (c != '@') = true := by
    intro c hc
    refine bne_iff_ne.mpr ?_
    rintro rfl
    exact hu hc
  rw [LeadsWithPair, List.dropWhile_append_of_pos hnone] at h
  exact h

theorem LeadsWithPair.mem (h : t.LeadsWithPair) : '@' ∈ t :=
  (List.dropWhile_sublist _).subset (h.subset List.mem_cons_self)

theorem leadsWithPair_at (h : LeadsWithPair ('@' :: t)) : ∃ u, t = '@' :: u := by
  obtain ⟨u, hu⟩ := h
  exact ⟨u, (List.cons.inj hu).2.symm⟩

end Text

namespace Grammar

variable {α β : Type} {c : Surroundings} {r : Reader} {s : StartTagState}

/-! ## The node of a transition -/

/-- Whatever it reads, a rule makes something that has a property. -/
def Makes (P : α → Prop) (g : Grammar α) : Prop := ∀ r, Gives g r fun a _ => P a

theorem makes_pure {P : α → Prop} {a : α} (h : P a) : Makes P (pure a) := fun _ => h

theorem makes_bind {P : β → Prop} {g : Grammar α} {f : α → Grammar β} (h : ∀ a, Makes P (f a)) :
    Makes P (g >>= f) := fun r => h (g r).1 (g r).2

theorem makes_ite {P : α → Prop} {p : Prop} [Decidable p] {g g' : Grammar α} (h : Makes P g)
    (h' : Makes P g') : Makes P (if p then g else g') := by
  split
  · exact h
  · exact h'

theorem keywordStatement_kind (c : Surroundings) (transition : Tree) :
    Makes (fun t => t.kind? = some .codeBlock) (keywordStatement c transition) := by
  have hend (run : CodeRun) : Makes (fun t => t.kind? = some .codeBlock)
      (pure (Tree.spanning .codeBlock run.finish transition.span)) := makes_pure rfl
  refine makes_bind fun _ => makes_bind fun _ => makes_ite (makes_bind fun _ => makes_bind ?_) ?_
  · rintro ⟨run, _ | word⟩
    · exact hend _
    · refine makes_bind fun _ => makes_bind fun _ => makes_bind fun _ => ?_
      exact makes_ite (makes_bind fun _ => hend _) (hend _)
  · refine makes_ite (makes_bind fun _ => makes_bind fun _ => hend _) ?_
    refine makes_bind fun _ => makes_bind fun _ => makes_ite (makes_bind fun _ => hend _) (hend _)

/-- A transition leads to a block of code, whatever follows it. -/
theorem codeTransition_kind (c : Surroundings) :
    Makes (fun t => t.kind? = some .codeBlock) (codeTransition c) := by
  intro r
  refine gives_codeTransition (Gives.mono (P := fun _ _ => True) trivial ?_)
  rintro ⟨start, transition⟩ r₁ -
  exact ⟨fun _ _ => rfl, keywordStatement_kind c transition r₁⟩

/-! ## Along a start tag -/

/-- Where no `@` is next, a turn takes tokens as they are, or ends the tag. -/
theorem startTagTurn_plain (hr : InMarkup r) (hat : r.tokenizer.rest.head? ≠ some '@') :
    Gives (startTagTurn c s) r fun t r' =>
      ∃ ts, t.value.trees = s.trees ++ ts.map Tree.token ∧ Takes r ts r' := by
  have htake {f : List Token → Turn StartTagState}
      (hf : ∀ ts, (f ts).value.trees = s.trees ++ ts.map Tree.token) :
      Gives (do return f (← bump)) r fun t r' =>
        ∃ ts, t.value.trees = s.trees ++ ts.map Tree.token ∧ Takes r ts r' :=
    ⟨_, hf _, bump_takes hr hat⟩
  refine gives_startTagTurn fun g hmove => ?_
  cases hmove with
  | stop => exact ⟨[], (List.append_nil _).symm, Takes.refl hr⟩
  | token | mark | close => exact htake fun _ => rfl
  | selfClose hkind _ hangle =>
      exact ⟨_, rfl, take_two_takes hr.language hkind (not_isRazor_of_head hr hat hkind) hangle (by decide)⟩
  | code hkind => exact absurd (Or.inl rfl) (not_isRazor_of_head hr hat hkind)
  | comment hkind => exact absurd (Or.inr rfl) (not_isRazor_of_head hr hat hkind)

/-- The trees of a start tag stay as they are while it is read on. -/
theorem startTagTurn_keepsTrees {code : Tree} (h : code ∈ s.trees) :
    Makes (fun t => code ∈ t.value.trees) (startTagTurn c s) := by
  have hadd {f : List Token → Turn StartTagState} {g : Grammar (List Token)}
      (hf : ∀ ts, (f ts).value.trees = s.trees ++ ts.map Tree.token) :
      Makes (fun t => code ∈ t.value.trees) (do return f (← g)) :=
    makes_bind fun ts => makes_pure ((hf ts).symm ▸ List.mem_append_left _ h)
  intro r
  refine gives_startTagTurn fun g hmove => ?_
  cases hmove with
  | stop => exact h
  | token | mark | close | selfClose => exact hadd (fun _ => rfl) r
  | code => exact List.mem_append_left _ h
  | comment => exact List.mem_append_left _ h

/-- What a repetition does not lose in its turns. -/
theorem makes_loop {turn : α → Grammar (Turn α)} {P : α → Prop}
    (hturn : ∀ a, P a → Makes (fun t => P t.value) (turn a)) {a : α} (ha : P a) : Makes P (loop turn a) :=
  fun _ => gives_loop_keeps (I := fun a _ => P a) (fun _ _ h => h) (fun a r h => hturn a h r) ha

/-! ## Behind a transition -/

/-- The reader of markup is at a transition behind another one. -/
structure AtEscaped (r : Reader) : Prop where
  language : r.tokenizer.language = .html
  kind : r.tokenizer.peek?.map (·.kind) = some .transition
  before : r.before = some '@'

theorem bump_before (hlanguage : r.tokenizer.language = .html)
    (hkind : r.tokenizer.peek?.map (·.kind) = some .transition) :
    Gives bump r fun _ r' => r'.tokenizer.language = .html ∧ r'.before = some '@' := by
  obtain ⟨t, ht, hk⟩ := Option.map_eq_some_iff.mp hkind
  obtain ⟨⟨t, s⟩, hnext, rfl⟩ := Option.map_eq_some_iff.mp ht
  obtain ⟨hcontent, hhtml⟩ := Tokenizer.next?_of_transition hlanguage hnext hk
  unfold Gives
  rw [bump_eq hnext]
  refine ⟨hhtml, ?_⟩
  show t.content.getLast?.or r.before = some '@'
  rw [hcontent]
  rfl

/-- A transition behind another one is no part of an address. -/
theorem addressAhead_escaped (h : r.before = some '@') :
    Gives addressAhead r fun address r' => address = false ∧ r' = r := by
  unfold addressAhead
  rw [gives_bind, gives_get]
  dsimp only
  rw [h]
  cases r.tokenizer.rest with
  | nil => exact ⟨rfl, rfl⟩
  | cons _ rest =>
      cases rest with
      | nil => exact ⟨rfl, rfl⟩
      | cons _ _ => exact ⟨rfl, rfl⟩

/-- Behind a transition, the next one is taken as it is if a third one follows, and leads to code if not. -/
theorem startTagTurn_escaped (hr : AtEscaped r) (hprevious : s.previous = .transition) :
    Gives (startTagTurn c s) r fun t r' => ∃ s', t = .again s' ∧
      ((∃ code ∈ s'.trees, code.kind? = some .codeBlock) ∨ (AtEscaped r' ∧ s'.previous = .transition)) := by
  unfold startTagTurn
  rw [gives_bind, gives_kind?, hr.kind]
  dsimp only
  rw [gives_bind, escapeAhead, gives_bind, gives_kindAt?, gives_pure, gives_bind]
  refine (addressAhead_escaped hr.before).mono ?_
  rintro _ _ ⟨rfl, rfl⟩
  rw [hprevious, show (TokenKind.transition == .whitespace) = false from rfl, Bool.and_false, Bool.false_or,
    Bool.or_false]
  split
  · next hescape =>
      rw [gives_bind]
      obtain ⟨hlanguage, hbefore⟩ := bump_before hr.language hr.kind
      refine ⟨_, rfl, Or.inr ⟨⟨hlanguage, ?_, hbefore⟩, rfl⟩⟩
      show ((bump _).2.tokenizer.peekNth? 0).map (·.kind) = some .transition
      rw [peekNth?_bump]
      exact beq_iff_eq.mp hescape
  · rw [gives_bind]
    refine ⟨_, rfl, Or.inl ⟨_, List.mem_append_right _ (List.mem_singleton_self _), ?_⟩⟩
    exact codeTransition_kind c _

/-- A turn that asks for another one leaves less to read. -/
theorem startTagTurn_again (hc : c.Sound r.left) (hs : AllParsed s.trees) {s' : StartTagState}
    (h : (startTagTurn c s r).1 = .again s') : AllParsed s'.trees ∧ (startTagTurn c s r).2.left < r.left := by
  have hadvances := startTagTurn_advances s hc hs
  unfold Gives at hadvances
  rw [h] at hadvances
  exact hadvances.2

/-- The last of some transitions that stand one behind the other in a start tag leads to code. -/
theorem startTag_code_of_escaped (hc : c.Sound r.left) (hs : AllParsed s.trees) (hr : AtEscaped r)
    (hprevious : s.previous = .transition) :
    Gives (loop (startTagTurn c) s) r fun s' _ => ∃ code ∈ s'.trees, code.kind? = some .codeBlock := by
  induction hn : r.left using Nat.strongRecOn generalizing s r with
  | ind n ih =>
      obtain ⟨s', hs', hnext⟩ := startTagTurn_escaped (c := c) hr hprevious
      obtain ⟨hparsed, hlt⟩ := startTagTurn_again hc hs hs'
      refine gives_loop_again ⟨s', hs', hlt, ?_⟩
      rcases hnext with ⟨code, hmem, hcode⟩ | ⟨hr', hprevious'⟩
      · refine ⟨code, ?_, hcode⟩
        exact makes_loop (P := fun s : StartTagState => code ∈ s.trees)
          (fun _ h => startTagTurn_keepsTrees h) hmem _
      · exact ih _ (hn ▸ hlt) (hc.mono (Nat.le_of_lt hlt)) hparsed hr' hprevious' rfl

/-- The first transition of a pair is taken as it is. -/
theorem startTagTurn_pair (hr : InMarkup r) {w : Text} (hrest : r.tokenizer.rest = '@' :: '@' :: w) :
    Gives (startTagTurn c s) r fun t r' => ∃ s', t = .again s' ∧ AtEscaped r' ∧ s'.previous = .transition := by
  have hnext := Tokenizer.next?_html hr.language hr.mode hrest
  have hkind : r.tokenizer.peek?.map (·.kind) = some .transition := by
    rw [Tokenizer.peek?, Tokenizer.peekNth?, hnext]
    rfl
  have hkind' : (r.tokenizer.peekNth? 1).map (·.kind) = some .transition := by
    rw [← peekNth?_bump, bump_eq hnext, Tokenizer.peekNth?]
    unfold Tokenizer.next?
    have hmode : Mode.escape ≠ .commentBody := by decide
    rw [if_neg (by exact hmode)]
    show some (Tokenizer.cut r.tokenizer.language .escape '@' w).kind = _
    rw [hr.language]
    rfl
  obtain ⟨hlanguage, hbefore⟩ := bump_before hr.language hkind
  unfold startTagTurn
  rw [gives_bind, gives_kind?, hkind]
  dsimp only
  rw [gives_bind, escapeAhead, gives_bind, gives_kindAt?, gives_pure, gives_bind, hkind']
  refine addressAhead_looks.gives fun address => ?_
  rw [beq_self_eq_true, Bool.or_true, Bool.true_or, if_pos rfl, gives_bind]
  refine ⟨_, rfl, ⟨hlanguage, ?_, hbefore⟩, rfl⟩
  show ((bump _).2.tokenizer.peekNth? 0).map (·.kind) = some .transition
  rw [peekNth?_bump, hkind']

/-- A transition does not end a start tag. -/
theorem startTagTurn_at (hr : InMarkup r) (hat : r.tokenizer.rest.head? = some '@') :
    Gives (startTagTurn c s) r fun t _ => ∃ s', t = .again s' := by
  obtain ⟨w, hrest⟩ := List.head?_eq_some_iff.mp hat
  have hkind : r.tokenizer.peek?.map (·.kind) = some (Cut.transition w).kind := by
    rw [Tokenizer.peek?, Tokenizer.peekNth?, Tokenizer.next?_html hr.language hr.mode hrest]
    rfl
  refine gives_startTagTurn fun g hmove => ?_
  cases hmove with
  | token | mark | code | comment => exact ⟨_, rfl⟩
  | stop h | close h | selfClose h =>
      rw [hkind] at h
      rcases Cut.kind_transition w with heq | heq
      · rw [heq] at h
        exact absurd h (by decide)
      · rw [heq] at h
        exact absurd h (by decide)

/-- What a start tag makes of what is read along it: without `@`, tokens alone, and some code if the first
    `@` is followed by another one. -/
def ReadsTagText (s : StartTagState) (u : Text) (s' : StartTagState) : Prop :=
  ('@' ∉ u → ∃ ts : List Token, s'.trees = s.trees ++ ts.map Tree.token) ∧
    (u.LeadsWithPair → ∃ code ∈ s'.trees, code.kind? = some .codeBlock)

/-- A pair of transitions leads to code in a start tag. -/
theorem startTag_code_of_pair (hc : c.Sound r.left) (hs : AllParsed s.trees) (hr : InMarkup r) {w : Text}
    (hrest : r.tokenizer.rest = '@' :: '@' :: w) :
    Gives (loop (startTagTurn c) s) r fun s' _ => ∃ code ∈ s'.trees, code.kind? = some .codeBlock := by
  obtain ⟨s', hs', hr', hprevious⟩ := startTagTurn_pair (c := c) (s := s) hr hrest
  obtain ⟨hparsed, hlt⟩ := startTagTurn_again hc hs hs'
  exact gives_loop_again
    ⟨s', hs', hlt, startTag_code_of_escaped (hc.mono (Nat.le_of_lt hlt)) hparsed hr' hprevious⟩

/-- From a transition on, a start tag reads at least that. -/
theorem startTag_loop_at (hc : c.Sound r.left) (hs : AllParsed s.trees) (hr : InMarkup r)
    (hat : r.tokenizer.rest.head? = some '@') :
    Gives (loop (startTagTurn c) s) r fun _ r' =>
      ∃ u, r.tokenizer.rest = '@' :: u ++ r'.tokenizer.rest := by
  have hturn (s : StartTagState) (r' : Reader) (hle : r'.left ≤ r.left) (hs : AllParsed s.trees) :=
    startTagTurn_advances s (hc.mono hle) hs
  have hfirst : True → Gives (startTagTurn c s) r fun _ r' => r'.left < r.left := by
    intro _
    obtain ⟨s', hs'⟩ := startTagTurn_at (c := c) (s := s) hr hat
    exact (startTagTurn_again hc hs hs').2
  refine (gives_loop_left hturn hs hfirst).mono ?_
  rintro s' r' ⟨⟨ts, -, hreads⟩, -, hlt⟩
  have hcontent := hreads.run.content
  rw [hcontent] at hat
  cases hts : contentOf ts with
  | nil =>
      -- nothing is remembered at the transition, so that less is left only where text has been read
      have hleft := hr.left
      have hleft' : 2 * r'.tokenizer.rest.length ≤ r'.left := Nat.le_add_right _ _
      have hless := hlt trivial
      rw [hts, List.nil_append] at hcontent
      rw [hleft, hcontent] at hless
      omega
  | cons x u =>
      rw [hts] at hat hcontent
      obtain rfl : x = '@' := Option.some.inj hat
      exact ⟨u, hcontent⟩

theorem startTag_loop_text (hc : c.Sound r.left) (hs : AllParsed s.trees) (hr : InMarkup r) :
    Gives (loop (startTagTurn c) s) r fun s' r' =>
      ∃ u, r.tokenizer.rest = u ++ r'.tokenizer.rest ∧ ReadsTagText s u s' := by
  unfold Gives
  induction hn : r.left using Nat.strongRecOn generalizing s r with
  | ind n ih =>
      subst hn
      -- up to the first `@` tokens are taken as they are, and from there on a pair decides
      by_cases hat : r.tokenizer.rest.head? = some '@'
      · obtain ⟨u, hrest⟩ := startTag_loop_at hc hs hr hat
        refine ⟨'@' :: u, hrest, fun hu => absurd List.mem_cons_self hu, fun hu => ?_⟩
        obtain ⟨v, rfl⟩ := Text.leadsWithPair_at hu
        exact startTag_code_of_pair hc hs hr hrest
      · obtain ⟨ts, htrees, htakes⟩ := startTagTurn_plain (c := c) (s := s) hr hat
        rw [loop]
        split
        · next s' r' h =>
            rw [h] at htrees htakes
            refine ⟨contentOf ts, htakes.reads.run.content, fun _ => ⟨ts, htrees⟩, fun hpair => ?_⟩
            exact absurd hpair.mem htakes.plain
        · next s' r' h =>
            obtain ⟨hparsed, hlt⟩ := startTagTurn_again hc hs (show (startTagTurn c s r).1 = .again s' by rw [h])
            rw [h] at htrees htakes hlt
            rw [if_pos hlt]
            obtain ⟨u, hrest, hclean, hpair⟩ := ih r'.left hlt (hc.mono (Nat.le_of_lt hlt)) hparsed
              htakes.markup rfl
            refine ⟨contentOf ts ++ u, ?_, fun hu => ?_, fun hu => ?_⟩
            · rw [htakes.reads.run.content, List.append_assoc]
              exact congrArg _ hrest
            · obtain ⟨us, hus⟩ := hclean fun hmem => hu (List.mem_append_right _ hmem)
              refine ⟨ts ++ us, hus.trans ?_⟩
              rw [show s'.trees = s.trees ++ ts.map Tree.token from htrees, List.map_append, List.append_assoc]
            · exact hpair (hu.of_append htakes.plain)

/-- A start tag is its `<` and its name, without `@`, and what is read along it. -/
theorem startTag_text (textTag : Bool) (hc : c.Sound r.left) (hat : AtTagName r) :
    Gives (startTag c textTag) r fun t r' => ∃ lead u s name kind place closing,
      t = .opening name (Tree.spanning kind s.trees place) closing ∧
      r.tokenizer.rest = contentOf lead ++ u ++ r'.tokenizer.rest ∧ '@' ∉ contentOf lead ∧
      ReadsTagText { trees := lead.map Tree.token } u s := by
  have hlead := take_two_takes hat.language hat.angle (by decide) hat.name (by decide)
  obtain ⟨u, hrest, htext⟩ := startTag_loop_text (s := { trees := (take 2 r).1.map Tree.token })
    (hc.mono hlead.reads.left) (allParsed_tokens _) hlead.markup
  refine ⟨(take 2 r).1, u, _, _, _, _, _, rfl, ?_, hlead.plain, htext⟩
  rw [hlead.reads.run.content, List.append_assoc]
  exact congrArg _ hrest

/-- Without `@` a start tag has no code in it; with `@`, of which the first is followed by another one, it
    does. -/
theorem IsStartTag.code {n : Tree} (h : IsStartTag n) :
    ('@' ∉ n.text → ∀ t ∈ n.descendants, t.kind? ≠ some .codeBlock) ∧
      (n.text.LeadsWithPair → ∃ t ∈ n.descendants, t.kind? = some .codeBlock) := by
  obtain ⟨c, textTag, r, name, closing, hc, hat, htag⟩ := h
  have hreads := (startTag_reads textTag hc).1
  obtain ⟨lead, u, s, _, kind, place, _, heq, hrest, hlead, hclean, hpair⟩ := startTag_text textTag hc hat
  rw [htag] at hreads heq
  obtain ⟨-, rfl, -⟩ := Tag.opening.inj heq
  generalize hn : Tree.spanning kind s.trees place = n at hreads
  have htext : n.text = contentOf lead ++ u :=
    List.append_cancel_right (hreads.run.content.symm.trans hrest)
  have hbelow : n.descendants = nodesAll s.trees := by rw [← hn]; rfl
  rw [htext, hbelow]
  constructor
  · intro hat
    obtain ⟨ts, hts⟩ := hclean fun hmem => hat (List.mem_append_right _ hmem)
    have hnone : nodesAll s.trees = [] := by
      rw [show s.trees = lead.map Tree.token ++ ts.map Tree.token from hts, ← List.map_append, nodesAll_tokens]
    rw [hnone]
    exact fun t ht => absurd ht List.not_mem_nil
  · intro hlp
    obtain ⟨code, hmem, hcode⟩ := hpair (hlp.of_append hlead)
    exact ⟨code, mem_nodesAll.mpr ⟨code, hmem, mem_nodes_self hcode⟩, hcode⟩

end Grammar

namespace ParsedDocument

/-- Among the start tags all of whose `@` come in pairs, those with code in them are those with `@`: the
    second of a pair leads to code, and is not escaped by the first. -/
theorem code_in_startTag_iff (kind : FileKind) (d : Source) {n : Tree} (hn : n ∈ (parse kind d).root.nodes)
    (htag : n.kind? = some .startTag) (hpaired : n.text.atSignsPaired = true) :
    (∃ t ∈ n.descendants, t.kind? = some .codeBlock) ↔ '@' ∈ n.text := by
  have hadmits : Admits fun n => n.kind? = some .startTag → IsStartTag n :=
    { node := fun _ _ _ hne heq => absurd heq hne
      startTag := fun _ _ _ h _ => h
      hollow := fun _ _ hhollow heq => nomatch hhollow.kind.symm.trans heq }
  obtain ⟨hclean, hcode⟩ := (nodes_parse hadmits kind d n hn htag).code
  constructor
  · rintro ⟨t, ht, hblock⟩
    by_contra hat
    exact hclean hat t ht hblock
  · exact fun hat => hcode (Text.leadsWithPair_of_paired hpaired hat)

theorem code_in_startTag_iff_attribute :
    ∃ n ∈ (parse .component (.anonymous "<p a='x@@@@y'>@@</p>")).root.nodes,
      ∃ t ∈ n.descendants, n.kind? = some .startTag ∧ n.text = "<p a='x@@@@y'>".toList ∧
        t.kind? = some .codeBlock := by
  obtain ⟨n, hn, htag, htext⟩ : ∃ n ∈ (parse .component (.anonymous "<p a='x@@@@y'>@@</p>")).root.nodes,
      n.kind? = some .startTag ∧ n.text = "<p a='x@@@@y'>".toList := by
    decide +kernel
  obtain ⟨t, ht, hcode⟩ := (code_in_startTag_iff .component (.anonymous "<p a='x@@@@y'>@@</p>") hn htag
    (by rw [htext]; decide)).mpr (by rw [htext]; decide)
  exact ⟨n, hn, t, ht, htag, htext, hcode⟩

/-- A start tag whose only `@` are a pair may have code in it. -/
theorem code_in_startTag_pair :
    ∃ n ∈ (parse .legacy (.anonymous "<p a=\"@@b\"></p>")).root.nodes, n.kind? = some .startTag ∧
      n.text.atSignsPaired = true ∧ ∃ t ∈ n.descendants, t.kind? = some .codeBlock := by
  decide +kernel

end ParsedDocument

end RazorLang
