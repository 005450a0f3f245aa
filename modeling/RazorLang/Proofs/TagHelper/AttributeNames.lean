import RazorLang.Generation.Element
import RazorLang.Proofs.Grammar.StartTag

/-!
# Names of attributes

The names in a start tag are read twice. Binding takes each text behind white space for one, unless a quote is open
(`Tree.startTagNames`). Generation goes from each name over its value to the next one, and takes a text that is in
neither for another name (`Tree.attributes`); white space before or behind `=` ends an attribute for it, so that the
quotes that follow are not those of a value.

Where the two stand is a `Spot`, which one tree leads from to another. A tag is spaced if on this way each text is in
a quoted value, right behind a name and `=`, or outside of quotes behind white space or a transition
(`Tree.isSpaced`). One step adds the same names to what both have read (`Spot.ahead_cons`, `Spot.Stands.next`), and so
does a whole way (`Spot.run`); from the first text that is elsewhere, generation reads a name and binding does not
(`Spot.stop`).

Main statement: `ParsedDocument.attributeNames_of_isSpaced`.
-/

namespace RazorLang

open RazorLang.Tree

namespace Attribute

variable {name : Text}

/-- The names of attributes that are no directives. -/
def plainNames (attributes : List Attribute) : List Text := (attributes.filter (!·.isDirective)).map (·.name)

theorem plainNames_directive (value : Option AttributeValue) (as : List Attribute) :
    plainNames (⟨'@' :: name, value⟩ :: as) = plainNames as := rfl

theorem plainNames_plain (h : name.head? ≠ some '@') (value : Option AttributeValue) (as : List Attribute) :
    plainNames (⟨name, value⟩ :: as) = name :: plainNames as := by
  have hplain : (!isDirective ⟨name, value⟩) = true := by
    show (!(name.head? == some '@')) = true
    rw [beq_false_of_ne h]
    rfl
  exact congrArg (List.map Attribute.name) (List.filter_cons_of_pos (p := fun a => !isDirective a) hplain)

end Attribute

namespace Tree

open Attribute

/-! ## Spots -/

/-- The kind of a tree that is a token. -/
def tokenKind? (t : Tree) : Option TokenKind := t.token?.map (·.kind)

/-- Where a reader of attributes stands in a start tag. -/
inductive Spot where
  /-- Behind white space. -/
  | gap
  /-- Behind a transition. -/
  | transition
  /-- Right behind the name of an attribute. -/
  | name
  /-- Right behind the name of an attribute and `=`. -/
  | assigned
  /-- In the quotes of a value. -/
  | value (quote : TokenKind)
  /-- In quotes that are not those of a value. -/
  | stray (quote : TokenKind)
  /-- Behind anything else. -/
  | other
  deriving DecidableEq, Repr

namespace Spot

/-- The quote that is open. -/
def quote? : Spot → Option TokenKind
  | value q | stray q => some q
  | _ => none

/-- The spot behind a tree of a kind that goes on with no attribute, outside of quotes; none behind a text. -/
def behind : Option TokenKind → Option Spot
  | some .text => none
  | some .whitespace | some .newLine => some gap
  | some .transition => some transition
  | some .doubleQuote => some (stray .doubleQuote)
  | some .singleQuote => some (stray .singleQuote)
  | _ => some other

/-- The spot behind a tree; none behind a text where there should be none, and neither behind a transition in quotes
    that are not those of a value. -/
def next? (s : Spot) (t : Tree) : Option Spot :=
  match s, t.tokenKind? with
  | gap, some .text | transition, some .text => some name
  | name, some .equals => some assigned
  | assigned, some .text => some other
  | assigned, some .doubleQuote => some (value .doubleQuote)
  | assigned, some .singleQuote => some (value .singleQuote)
  | value q, kind => some (if kind = some q then other else value q)
  | stray _, some .text | stray _, some .transition => none
  | stray q, kind => some (if kind = some q then other else stray q)
  | _, kind => behind kind

/-- The names that a tree adds to those that have been read. -/
def reads : Spot → Tree → List Text
  | gap, .token t => if t.kind = .text then [t.content] else []
  | _, _ => []

/-- The trees in which generation looks for another attribute. -/
def left : Spot → List Tree → List Tree
  | transition, t :: rest => if isTokenOf .text t then (readValue rest).2 else t :: rest
  | name, trees => (readValue trees).2
  | assigned, trees => (readAssigned trees).2
  | value q, trees => (trees.dropWhile (!isTokenOf q ·)).drop 1
  | _, trees => trees

/-- The names that generation reads from a spot on. -/
def ahead (s : Spot) (trees : List Tree) : List Text := plainNames (readAll (s.left trees))

variable {s s' : Spot} {t : Tree} {rest : List Tree}

/-- Only a text behind white space adds a name. -/
theorem reads_eq_nil (h : s = gap → t.tokenKind? ≠ some .text) : s.reads t = [] := by
  cases t with
  | node =>
      cases s with
      | _ => rfl
  | token t =>
      cases s with
      | gap => exact if_neg fun hkind => h rfl (congrArg some hkind)
      | _ => rfl

theorem ahead_nil (s : Spot) : s.ahead [] = [] := by
  have hnil : s.left [] = [] := by
    cases s with
    | _ => rfl
  rw [ahead, hnil, readAll]
  rfl

theorem exists_token {kind : TokenKind} (h : t.tokenKind? = some kind) :
    ∃ u, t = .token u ∧ u.kind = kind := by
  cases t with
  | node => exact nomatch h
  | token u => exact ⟨u, rfl, Option.some.inj h⟩

/-! ## Generation -/

theorem readName?_text {u : Token} (h : u.kind = .text) (rest : List Tree) :
    readName? (.token u) rest = some (u.content, rest) := by
  show (if u.kind == .text then some (u.content, rest) else _) = _
  rw [h]
  rfl

/-- No name begins with anything else than a text or a transition. -/
theorem readName?_eq_none (htext : t.tokenKind? ≠ some .text) (htransition : t.tokenKind? ≠ some .transition) :
    readName? t rest = none := by
  cases t with
  | node => rfl
  | token t =>
      show (if t.kind == .text then _ else if t.kind == .transition then _ else none) = none
      rw [if_neg, if_neg]
      · exact fun hkind => htransition (congrArg some (beq_iff_eq.mp hkind))
      · exact fun hkind => htext (congrArg some (beq_iff_eq.mp hkind))

theorem readValue_eq_none (h : t.tokenKind? ≠ some .equals) : readValue (t :: rest) = (none, t :: rest) := by
  cases t with
  | node => rfl
  | token t =>
      show (if t.kind == .equals then _ else (none, Tree.token t :: rest)) = _
      rw [if_neg]
      exact fun hkind => h (congrArg some (beq_iff_eq.mp hkind))

theorem readAssigned_eq_none (htext : t.tokenKind? ≠ some .text) (hdouble : t.tokenKind? ≠ some .doubleQuote)
    (hsingle : t.tokenKind? ≠ some .singleQuote) : readAssigned (t :: rest) = (none, t :: rest) := by
  cases t with
  | node => rfl
  | token t =>
      rw [readAssigned, if_neg, if_neg]
      · exact fun hkind => htext (congrArg some (beq_iff_eq.mp hkind))
      · rw [Bool.or_eq_true, beq_iff_eq, beq_iff_eq]
        rintro (hkind | hkind)
        · exact hdouble (congrArg some hkind)
        · exact hsingle (congrArg some hkind)

/-- A quote right behind a name and `=` is one of a value. -/
theorem left_quote {q : TokenKind} (h : t.tokenKind? = some q) (hq : q = .doubleQuote ∨ q = .singleQuote) :
    assigned.left (t :: rest) = (value q).left rest := by
  obtain ⟨u, rfl, rfl⟩ := exists_token h
  have hquote : (u.kind == .doubleQuote || u.kind == .singleQuote) = true := by
    rw [Bool.or_eq_true, beq_iff_eq, beq_iff_eq]
    exact hq
  rw [left, readAssigned, if_pos hquote]
  rfl

/-- Outside of quotes, behind what has been read of an attribute, generation reads on at the spot behind a tree. -/
theorem ahead_behind (h : behind t.tokenKind? = some s') : plainNames (readAll (t :: rest)) = s'.ahead rest := by
  have hskip (htext : t.tokenKind? ≠ some .text) (htransition : t.tokenKind? ≠ some .transition)
      (hleft : s'.left rest = rest) : plainNames (readAll (t :: rest)) = s'.ahead rest := by
    rw [readAll_skip (readName?_eq_none htext htransition), ahead, hleft]
  unfold behind at h
  split at h
  · exact nomatch h
  · next hkind => exact hskip (by simp [hkind]) (by simp [hkind]) (Option.some.inj h ▸ rfl)
  · next hkind => exact hskip (by simp [hkind]) (by simp [hkind]) (Option.some.inj h ▸ rfl)
  · next hkind =>
      -- what follows a transition decides whether a name begins with it
      obtain rfl := Option.some.inj h
      obtain ⟨u, rfl, hu⟩ := exists_token hkind
      cases rest with
      | nil =>
          have hname : readName? (.token u) [] = none := by
            show (if u.kind == .text then _ else if u.kind == .transition then none else none) = none
            rw [hu]
            rfl
          rw [readAll_skip hname]
          rfl
      | cons second more =>
          have hname : readName? (.token u) (second :: more) =
              if isTokenOf .text second then some ('@' :: second.text, more) else none := by
            show (if u.kind == .text then _ else if u.kind == .transition then
              (if isTokenOf .text second then some ('@' :: second.text, more) else none) else none) = _
            rw [hu]
            rfl
          by_cases htext : isTokenOf .text second = true
          · rw [readAll_name (hname.trans (if_pos htext)), plainNames_directive, ahead, left, if_pos htext]
          · rw [readAll_skip (hname.trans (if_neg htext)), ahead, left, if_neg htext]
  · next hkind => exact hskip (by simp [hkind]) (by simp [hkind]) (Option.some.inj h ▸ rfl)
  · next hkind => exact hskip (by simp [hkind]) (by simp [hkind]) (Option.some.inj h ▸ rfl)
  · next htext _ _ htransition _ _ => exact hskip htext htransition (Option.some.inj h ▸ rfl)

/-- A spot leads on with the names that a tree adds. -/
theorem ahead_cons (h : s.next? t = some s') (ht : PlainTexts [t]) :
    s.ahead (t :: rest) = s.reads t ++ s'.ahead rest := by
  unfold next? at h
  split at h
  · next hkind =>
      -- the name of an attribute, which begins with no transition
      obtain rfl := Option.some.inj h
      obtain ⟨u, rfl, hu⟩ := exists_token hkind
      have hreads : gap.reads (.token u) = [u.content] := if_pos hu
      show plainNames (readAll (.token u :: rest)) = _
      rw [readAll_name (readName?_text hu rest), plainNames_plain (ht u List.mem_cons_self hu), hreads]
      rfl
  · next hkind =>
      obtain rfl := Option.some.inj h
      have htext : isTokenOf .text t = true := beq_iff_eq.mpr hkind
      rw [ahead, left, if_pos htext]
      rfl
  · next hkind =>
      obtain rfl := Option.some.inj h
      obtain ⟨u, rfl, hu⟩ := exists_token hkind
      have hvalue : readValue (.token u :: rest) = readAssigned rest := by
        show (if u.kind == .equals then _ else _) = _
        rw [hu]
        rfl
      rw [ahead, left, hvalue]
      rfl
  · next hkind =>
      obtain rfl := Option.some.inj h
      obtain ⟨u, rfl, hu⟩ := exists_token hkind
      have hvalue : (readAssigned (.token u :: rest)).2 = rest := by
        rw [readAssigned, hu]
        rfl
      rw [ahead, left, hvalue]
      rfl
  · next hkind =>
      obtain rfl := Option.some.inj h
      exact congrArg (plainNames ∘ readAll) (left_quote hkind (Or.inl rfl))
  · next hkind =>
      obtain rfl := Option.some.inj h
      exact congrArg (plainNames ∘ readAll) (left_quote hkind (Or.inr rfl))
  · next q =>
      obtain rfl := Option.some.inj h
      split
      · next hq =>
          have hclosing : isTokenOf q t = true := beq_iff_eq.mpr hq
          rw [ahead, left, List.dropWhile_cons_of_neg (by simp [hclosing])]
          rfl
      · next hq =>
          have hinner : isTokenOf q t = false := beq_eq_false_iff_ne.mpr hq
          rw [ahead, left, List.dropWhile_cons_of_pos (by simp [hinner])]
          rfl
  · exact nomatch h
  · exact nomatch h
  · next q htext htransition =>
      obtain rfl := Option.some.inj h
      show plainNames (readAll (t :: rest)) = _
      rw [readAll_skip (readName?_eq_none htext htransition)]
      split
      · rfl
      · rfl
  · next s _ _ hvalue hstray hgap htransition hname htext hdouble hsingle _ _ =>
      -- nothing of an attribute is outstanding that the tree could be
      have hleft : s.left (t :: rest) = t :: rest := by
        cases s with
        | gap | other => rfl
        | transition => exact if_neg fun hkind => htransition rfl (beq_iff_eq.mp hkind)
        | name => exact congrArg Prod.snd (readValue_eq_none (hname rfl))
        | assigned => exact congrArg Prod.snd (readAssigned_eq_none (htext rfl) (hdouble rfl) (hsingle rfl))
        | value q => exact absurd rfl (hvalue q)
        | stray q => exact absurd rfl (hstray q)
      rw [ahead, hleft, reads_eq_nil hgap]
      exact ahead_behind h

end Spot

/-! ## Binding -/

/-- The quote that is open behind a tree of a kind. -/
def quoteBehind (quote : Option TokenKind) : Option TokenKind → Option TokenKind
  | some .doubleQuote => Grammar.toggleQuote quote .doubleQuote
  | some .singleQuote => Grammar.toggleQuote quote .singleQuote
  | _ => quote

/-- In quotes, only the same quote closes them. -/
theorem quoteBehind_some {q : TokenKind} (hq : q = .doubleQuote ∨ q = .singleQuote) (kind : Option TokenKind) :
    quoteBehind (some q) kind = if kind = some q then none else some q := by
  unfold quoteBehind
  split
  · rcases hq with rfl | rfl
    · rfl
    · rfl
  · rcases hq with rfl | rfl
    · rfl
    · rfl
  · next hdouble hsingle =>
      rw [if_neg]
      rcases hq with rfl | rfl
      · exact hdouble
      · exact hsingle

theorem mark_quoteBehind {quote kind : Option TokenKind}
    (h : ∀ q ∈ quote, q = .doubleQuote ∨ q = .singleQuote) :
    ∀ q ∈ quoteBehind quote kind, q = .doubleQuote ∨ q = .singleQuote := by
  have htoggle {mark : TokenKind} (hmark : mark = .doubleQuote ∨ mark = .singleQuote) :
      ∀ q ∈ Grammar.toggleQuote quote mark, q = .doubleQuote ∨ q = .singleQuote := by
    intro q hq
    unfold Grammar.toggleQuote at hq
    split at hq
    · exact Option.some.inj hq ▸ hmark
    · split at hq
      · exact nomatch hq
      · exact h q hq
  unfold quoteBehind
  split
  · exact htoggle (Or.inl rfl)
  · exact htoggle (Or.inr rfl)
  · exact h

namespace StartTagNames

variable {b : StartTagNames} {t : Tree}

/-- White space stands right before. -/
def BehindSpace (b : StartTagNames) : Prop := b.previous = some .whitespace ∨ b.previous = some .newLine

theorem previous_next (b : StartTagNames) (t : Tree) : (b.next t).previous = t.tokenKind? := by
  cases t with
  | node => rfl
  | token t => rfl

theorem quote_next (b : StartTagNames) (t : Tree) : (b.next t).quote = quoteBehind b.quote t.tokenKind? := by
  cases t with
  | node => rfl
  | token t =>
      show _ = quoteBehind b.quote (some t.kind)
      rw [next]
      split
      · next hkind =>
          rw [hkind]
          rfl
      · next hkind =>
          rw [hkind]
          rfl
      · next hkind _ =>
          rw [hkind]
          split
          · rfl
          · rfl
          · rfl
          · rfl
      · next hdouble hsingle _ =>
          unfold quoteBehind
          split
          · next hkind => exact absurd (Option.some.inj hkind) hdouble
          · next hkind => exact absurd (Option.some.inj hkind) hsingle
          · rfl

/-- Behind white space a text outside of quotes is a name. -/
theorem attributes_next_name {u : Token} (hkind : u.kind = .text) (hquote : b.quote = none)
    (hspace : b.BehindSpace) : (b.next (.token u)).attributes = b.attributes ++ [u.content] := by
  rw [next, hkind, hquote]
  rcases hspace with hspace | hspace
  · rw [hspace]
  · rw [hspace]

/-- No other tree is. -/
theorem attributes_next (h : t.tokenKind? = some .text → b.quote = none → ¬ b.BehindSpace) :
    (b.next t).attributes = b.attributes := by
  cases t with
  | node => rfl
  | token t =>
      rw [next]
      split
      · rfl
      · rfl
      · next hkind hquote =>
          split
          · rfl
          · next hspace => exact absurd (Or.inl hspace) (h (congrArg some hkind) hquote)
          · next hspace => exact absurd (Or.inr hspace) (h (congrArg some hkind) hquote)
          · rfl
      · rfl

end StartTagNames

namespace Spot

open StartTagNames

/-- The state of binding at a spot: the same quote is open, and outside of quotes it knows white space. -/
structure Stands (s : Spot) (b : StartTagNames) : Prop where
  quote : b.quote = s.quote?
  mark : ∀ q ∈ s.quote?, q = .doubleQuote ∨ q = .singleQuote
  space : s.quote? = none → (s = gap ↔ b.BehindSpace)

variable {s s' : Spot} {b : StartTagNames} {t : Tree} {kind quote : Option TokenKind}

/-- A spot behind a tree of a kind knows the quote that is open there, and the white space outside of quotes. -/
structure Follows (quote kind : Option TokenKind) (s : Spot) : Prop where
  quote : s.quote? = quoteBehind quote kind
  space : s.quote? = none → (s = gap ↔ kind = some .whitespace ∨ kind = some .newLine)

theorem follows_behind (h : behind kind = some s) : Follows none kind s := by
  unfold behind at h
  split at h
  · exact nomatch h
  · obtain rfl := Option.some.inj h
    exact ⟨rfl, by decide⟩
  · obtain rfl := Option.some.inj h
    exact ⟨rfl, by decide⟩
  · obtain rfl := Option.some.inj h
    exact ⟨rfl, by decide⟩
  · obtain rfl := Option.some.inj h
    exact ⟨rfl, nofun⟩
  · obtain rfl := Option.some.inj h
    exact ⟨rfl, nofun⟩
  · next hspace hline _ hdouble hsingle =>
      obtain rfl := Option.some.inj h
      refine ⟨?_, fun _ => ⟨nofun, ?_⟩⟩
      · unfold quoteBehind
        split
        · exact absurd rfl hdouble
        · exact absurd rfl hsingle
        · rfl
      · rintro (rfl | rfl)
        · exact absurd rfl hspace
        · exact absurd rfl hline

/-- In quotes, the spot behind a tree is one in the same quotes, unless they are closed. -/
theorem follows_quoted {q : TokenKind} (hs : s.quote? = some q) (hq : q = .doubleQuote ∨ q = .singleQuote)
    (kind : Option TokenKind) : Follows (some q) kind (if kind = some q then other else s) := by
  split
  · next hkind =>
      refine ⟨?_, fun _ => ⟨nofun, ?_⟩⟩
      · rw [quoteBehind_some hq, if_pos hkind]
        rfl
      · rcases hq with rfl | rfl
        · rw [hkind]; decide
        · rw [hkind]; decide
  · next hkind =>
      refine ⟨?_, fun hnone => ?_⟩
      · rw [quoteBehind_some hq, if_neg hkind]
        exact hs
      · exact nomatch hs.symm.trans hnone

theorem follows_next (hmark : ∀ q ∈ s.quote?, q = .doubleQuote ∨ q = .singleQuote) (h : s.next? t = some s') :
    Follows s.quote? t.tokenKind? s' := by
  -- outside of quotes, the kinds that go on with an attribute
  have houtside {k : TokenKind} {u : Spot} (hu : some u = some s') (hkind : t.tokenKind? = some k)
      (hfollows : Follows none (some k) u) : Follows none t.tokenKind? s' := by
    obtain rfl := Option.some.inj hu
    rw [hkind]
    exact hfollows
  unfold next? at h
  split at h
  · next hkind => exact houtside h hkind ⟨rfl, by decide⟩
  · next hkind => exact houtside h hkind ⟨rfl, by decide⟩
  · next hkind => exact houtside h hkind ⟨rfl, by decide⟩
  · next hkind => exact houtside h hkind ⟨rfl, by decide⟩
  · next hkind => exact houtside h hkind ⟨rfl, nofun⟩
  · next hkind => exact houtside h hkind ⟨rfl, nofun⟩
  · next q =>
      obtain rfl := Option.some.inj h
      exact follows_quoted rfl (hmark q rfl) _
  · exact nomatch h
  · exact nomatch h
  · next q _ _ =>
      obtain rfl := Option.some.inj h
      exact follows_quoted rfl (hmark q rfl) _
  · next s _ _ hvalue hstray _ _ _ _ _ _ _ _ =>
      have hnone : s.quote? = none := by
        cases s with
        | value q => exact absurd rfl (hvalue q)
        | stray q => exact absurd rfl (hstray q)
        | _ => rfl
      rw [hnone]
      exact follows_behind h

/-- A tree leads from a spot to the next one, and binding from its state at the one to its state at the other. -/
theorem Stands.next (hb : s.Stands b) (h : s.next? t = some s') :
    s'.Stands (b.next t) ∧ (b.next t).attributes = b.attributes ++ s.reads t := by
  have hfollows := follows_next hb.mark h
  refine ⟨⟨?_, ?_, ?_⟩, ?_⟩
  · rw [quote_next, hb.quote, hfollows.quote]
  · rw [hfollows.quote]
    exact mark_quoteBehind hb.mark
  · intro hnone
    rw [BehindSpace, previous_next]
    exact hfollows.space hnone
  · by_cases hname : s = gap ∧ t.tokenKind? = some .text
    · obtain ⟨rfl, htext⟩ := hname
      obtain ⟨u, rfl, hu⟩ := exists_token htext
      rw [attributes_next_name hu hb.quote ((hb.space rfl).mp rfl)]
      exact congrArg _ (if_pos hu).symm
    · rw [reads_eq_nil fun hs htext => hname ⟨hs, htext⟩, List.append_nil]
      refine attributes_next fun htext hnone hspace => hname ⟨?_, htext⟩
      exact (hb.space (hb.quote.symm.trans hnone)).mpr hspace

/-! ## Both -/

variable {trees : List Tree}

/-- On the way from a spot to another one, generation and binding read the same names. -/
theorem run (h : trees.foldlM next? s = some s') (hplain : PlainTexts trees) (hb : s.Stands b) :
    ∃ names, s'.Stands (trees.foldl StartTagNames.next b) ∧
      (trees.foldl StartTagNames.next b).attributes = b.attributes ++ names ∧
      ∀ rest, s.ahead (trees ++ rest) = names ++ s'.ahead rest := by
  induction trees generalizing s b with
  | nil =>
      obtain rfl := Option.some.inj h
      exact ⟨[], hb, (List.append_nil _).symm, fun rest => rfl⟩
  | cons t trees ih =>
      rw [List.foldlM_cons] at h
      obtain ⟨s₁, hnext, hmore⟩ := Option.bind_eq_some_iff.mp h
      obtain ⟨hstands, hattributes⟩ := hb.next hnext
      obtain ⟨names, hend, hread, hahead⟩ := ih hmore (hplain.mono (List.subset_cons_self t trees)) hstands
      refine ⟨s.reads t ++ names, hend, ?_, fun rest => ?_⟩
      · rw [List.foldl_cons, hread, hattributes, List.append_assoc]
      · rw [List.cons_append, ahead_cons hnext (hplain.mono (List.cons_subset_cons t (List.nil_subset trees))),
          hahead rest, List.append_assoc]

/-- A way from a spot that leads no further stops at its first tree that does not. -/
theorem exists_stop (h : trees.foldlM next? s = none) :
    ∃ passed t rest s', trees = passed ++ t :: rest ∧ passed.foldlM next? s = some s' ∧ s'.next? t = none := by
  induction trees generalizing s with
  | nil => exact nomatch h
  | cons t trees ih =>
      cases hnext : s.next? t with
      | none => exact ⟨[], t, trees, s, rfl, rfl, hnext⟩
      | some s₁ =>
          rw [List.foldlM_cons, hnext] at h
          obtain ⟨passed, u, rest, s', htrees, hpassed, hstop⟩ := ih h
          refine ⟨t :: passed, u, rest, s', congrArg (t :: ·) htrees, ?_, hstop⟩
          rw [List.foldlM_cons, hnext]
          exact hpassed

theorem text_of_behind_eq_none {kind : Option TokenKind} (h : behind kind = none) : kind = some .text := by
  unfold behind at h
  split at h
  · rfl
  · exact nomatch h
  · exact nomatch h
  · exact nomatch h
  · exact nomatch h
  · exact nomatch h
  · exact nomatch h

/-- Where there is no way on and no transition is next, a text is, which only generation takes for a name. -/
theorem stop (h : s.next? t = none) (htransition : t.tokenKind? ≠ some .transition) (hplain : PlainTexts [t])
    (hb : s.Stands b) : ∃ name, s.ahead [t] = [name] ∧ (b.next t).attributes = b.attributes := by
  have htext (hkind : t.tokenKind? = some .text) (hleft : s.left [t] = [t]) (hs : s ≠ gap) :
      ∃ name, s.ahead [t] = [name] ∧ (b.next t).attributes = b.attributes := by
    obtain ⟨u, rfl, hu⟩ := exists_token hkind
    refine ⟨u.content, ?_, attributes_next fun _ hnone hspace => hs ?_⟩
    · rw [ahead, hleft, readAll_name (readName?_text hu []), plainNames_plain (hplain u List.mem_cons_self hu)]
      exact congrArg (u.content :: ·) (ahead_nil name)
    · exact (hb.space (hb.quote.symm.trans hnone)).mpr hspace
  unfold next? at h
  split at h
  · exact nomatch h
  · exact nomatch h
  · exact nomatch h
  · exact nomatch h
  · exact nomatch h
  · exact nomatch h
  · exact nomatch h
  · next hkind => exact htext hkind rfl nofun
  · next hkind => exact absurd hkind htransition
  · exact nomatch h
  · next s _ _ hvalue _ hgap hmark _ hassigned _ _ _ _ =>
      have hkind := text_of_behind_eq_none h
      cases s with
      | gap => exact absurd hkind (hgap rfl)
      | transition => exact absurd hkind (hmark rfl)
      | assigned => exact absurd hkind (hassigned rfl)
      | name =>
          refine htext hkind (congrArg Prod.snd (readValue_eq_none ?_)) nofun
          rw [hkind]
          decide
      | value q => exact absurd rfl (hvalue q)
      | stray q => exact htext hkind rfl nofun
      | other => exact htext hkind rfl nofun

end Spot

/-! ## Start tags -/

/-- Behind its name, each text of a start tag is in the quotes of a value, or the value right behind a name and `=`,
    or outside of quotes behind white space or a transition. Quotes that are not those of a value have no transition
    in them either. -/
def isSpaced (n : Tree) : Bool := ((n.children.drop 2).foldlM Spot.next? .other).isSome

/-- From some of the trees of a start tag, from its `<` on, generation and binding read the same names. -/
def ReadersAgree (trees : List Tree) : Prop :=
  plainNames (readAll (trees.drop 2)) = (trees.foldl StartTagNames.next {}).attributes

variable {n : Tree}

/-- Behind `<` and a name, binding has read no attribute. -/
theorem stands_lead {mark first : Token} (hmark : mark.kind = .openAngle) (hfirst : first.kind = .text) :
    Spot.other.Stands ((StartTagNames.next {} (.token mark)).next (.token first)) ∧
      ((StartTagNames.next {} (.token mark)).next (.token first)).attributes = [] := by
  have hlead : (StartTagNames.next {} (.token mark)).next (.token first) =
      { name := first.content, previous := some .text } := by
    rw [StartTagNames.next, StartTagNames.next, hmark, hfirst]
  rw [hlead]
  refine ⟨⟨rfl, nofun, fun _ => ⟨nofun, ?_⟩⟩, rfl⟩
  rintro (hspace | hspace)
  · exact nomatch hspace
  · exact nomatch hspace

section Behind

variable {mark first : Token} (hmark : mark.kind = .openAngle) (hfirst : first.kind = .text) {trees : List Tree}
  {s : Spot}

include hmark hfirst

/-- On a way behind the name of an element, generation and binding agree. -/
theorem readersAgree_of_run (h : trees.foldlM Spot.next? .other = some s) (hplain : PlainTexts trees) :
    ReadersAgree (.token mark :: .token first :: trees) := by
  obtain ⟨hstands, hnone⟩ := stands_lead hmark hfirst
  obtain ⟨names, -, hbound, hread⟩ := Spot.run h hplain hstands
  calc plainNames (readAll trees)
      = Spot.other.ahead (trees ++ []) := by rw [List.append_nil]; rfl
    _ = names := by rw [hread, Spot.ahead_nil, List.append_nil]
    _ = (trees.foldl StartTagNames.next _).attributes := by rw [hbound, hnone, List.nil_append]

/-- Where the way ends, they do not. -/
theorem not_readersAgree_of_stop (h : trees.foldlM Spot.next? .other = some s) {t : Tree}
    (hstop : s.next? t = none) (htransition : t.tokenKind? ≠ some .transition) (hplain : PlainTexts (trees ++ [t])) :
    ¬ ReadersAgree (.token mark :: .token first :: (trees ++ [t])) := by
  obtain ⟨hstands, hnone⟩ := stands_lead hmark hfirst
  obtain ⟨names, hend, hbound, hread⟩ := Spot.run h (hplain.mono (List.subset_append_left trees [t])) hstands
  obtain ⟨name, hname, hsame⟩ :=
    Spot.stop hstop htransition (hplain.mono (List.subset_append_right trees [t])) hend
  rw [hnone, List.nil_append] at hbound
  intro hagree
  have hnames : names ++ [name] = names := by
    calc names ++ [name]
        = Spot.other.ahead (trees ++ [t]) := by rw [hread, hname]
      _ = ((trees ++ [t]).foldl StartTagNames.next
            ((StartTagNames.next {} (.token mark)).next (.token first))).attributes := hagree
      _ = names := by rw [List.foldl_concat, hsame, hbound]
  exact List.cons_ne_nil _ _ (List.append_right_eq_self.mp hnames)

end Behind

/-- In a tag that is spaced, generation and binding agree from its beginning on. -/
theorem BeginsTag.readersAgree (hn : n.BeginsTag) (hspaced : n.isSpaced = true) {trees : List Tree}
    (h : trees <+: n.children) : ReadersAgree trees := by
  obtain ⟨mark, first, more, hchildren, hmark, hfirst, hplain⟩ := hn
  rw [isSpaced, hchildren] at hspaced
  rw [hchildren] at h
  match trees with
  | [] => exact Spot.ahead_nil .other
  | [t] =>
      obtain rfl : t = .token mark := (List.cons_prefix_cons.mp h).1
      refine (Spot.ahead_nil .other).trans ?_
      show [] = (StartTagNames.next {} (.token mark)).attributes
      rw [StartTagNames.next, hmark]
  | t :: u :: trees =>
      obtain ⟨rfl, hu⟩ := List.cons_prefix_cons.mp h
      obtain ⟨rfl, rest, rfl⟩ := List.cons_prefix_cons.mp hu
      obtain ⟨s, hs⟩ := Option.isSome_iff_exists.mp hspaced
      rw [show List.drop 2 (Tree.token mark :: .token first :: (trees ++ rest)) = trees ++ rest from rfl,
        List.foldlM_append] at hs
      obtain ⟨s₁, hway, -⟩ := Option.bind_eq_some_iff.mp hs
      exact readersAgree_of_run hmark hfirst hway (hplain.mono (List.subset_append_left trees rest))

/-- A tag without transitions is spaced if generation and binding agree from its beginning on. -/
theorem BeginsTag.isSpaced (hn : n.BeginsTag) (htransition : ∀ t ∈ n.ownTokens, t.kind ≠ .transition)
    (h : ∀ trees, trees <+: n.children → ReadersAgree trees) : n.isSpaced = true := by
  obtain ⟨mark, first, more, hchildren, hmark, hfirst, hplain⟩ := hn
  rw [Tree.isSpaced, hchildren]
  show (more.foldlM Spot.next? .other).isSome = true
  cases hway : more.foldlM Spot.next? .other with
  | some s => rfl
  | none =>
      obtain ⟨passed, t, rest, s, rfl, hpassed, hstop⟩ := Spot.exists_stop hway
      have hprefix : passed ++ [t] <+: passed ++ t :: rest := ⟨rest, by rw [List.append_assoc]; rfl⟩
      refine absurd (h (.token mark :: .token first :: (passed ++ [t])) ?_)
        (not_readersAgree_of_stop hmark hfirst hpassed hstop ?_ (hplain.mono hprefix.subset))
      · rw [hchildren]
        exact List.cons_prefix_cons.mpr ⟨rfl, List.cons_prefix_cons.mpr ⟨rfl, hprefix⟩⟩
      · intro hkind
        obtain ⟨u, rfl, hu⟩ := Spot.exists_token hkind
        refine htransition u (List.mem_filterMap.mpr ⟨.token u, ?_, rfl⟩) hu
        rw [hchildren]
        simp

end Tree

namespace ParsedDocument

/-- In a start tag that is spaced, generation reads the names of attributes that binding reads, and directives. Of the
    tags without transitions, these are the ones that both read alike from the beginning on. -/
theorem attributeNames_of_isSpaced (kind : FileKind) (d : Source) {n : Tree}
    (hn : n ∈ (parse kind d).root.nodes) (htag : n.kind? = some .startTag) :
    (n.isSpaced = true → Attribute.plainNames n.attributes = n.startTagNames.2) ∧
      ((∀ t ∈ n.ownTokens, t.kind ≠ .transition) →
        (n.isSpaced = true ↔ ∀ trees, trees <+: n.children → ReadersAgree trees)) := by
  have hbegins := beginsTag_of_parse kind d hn htag
  refine ⟨fun hspaced => ?_, fun htransition => ⟨fun hspaced trees h => ?_, fun h => ?_⟩⟩
  · exact hbegins.readersAgree hspaced List.prefix_rfl
  · exact hbegins.readersAgree hspaced h
  · exact hbegins.isSpaced htransition h

/-- A spaced tag with a directive, and a tag with a beginning that the two read differently. -/
theorem attributeNames_of_isSpaced_directive :
    (∃ n ∈ (parse .component (.anonymous "<p a=\"x y\" @onclick='f' b/>")).root.nodes, n.isSpaced = true ∧
      Attribute.plainNames n.attributes = ["a".toList, "b".toList]) ∧
    ∃ n ∈ (parse .legacy (.anonymous "<p a=1/2>")).root.nodes, (∀ t ∈ n.ownTokens, t.kind ≠ .transition) ∧
      ∃ trees, trees <+: n.children ∧ ¬ ReadersAgree trees := by
  constructor
  · obtain ⟨n, hn, htag, hspaced, hnames⟩ :
        ∃ n ∈ (parse .component (.anonymous "<p a=\"x y\" @onclick='f' b/>")).root.nodes,
          n.kind? = some .startTag ∧ n.isSpaced = true ∧ n.startTagNames.2 = ["a".toList, "b".toList] := by
      decide +kernel
    have hagree := (attributeNames_of_isSpaced .component (.anonymous "<p a=\"x y\" @onclick='f' b/>") hn htag).1
    exact ⟨n, hn, hspaced, (hagree hspaced).trans hnames⟩
  · obtain ⟨n, hn, htag, htransition, hspaced⟩ :
        ∃ n ∈ (parse .legacy (.anonymous "<p a=1/2>")).root.nodes, n.kind? = some .startTag ∧
          (∀ t ∈ n.ownTokens, t.kind ≠ .transition) ∧ n.isSpaced = false := by
      decide +kernel
    have hiff := (attributeNames_of_isSpaced .legacy (.anonymous "<p a=1/2>") hn htag).2 htransition
    refine ⟨n, hn, htransition, ?_⟩
    by_contra hnone
    refine Bool.false_ne_true (hspaced.symm.trans (hiff.mpr fun trees h => ?_))
    by_contra hdiffer
    exact hnone ⟨trees, h, hdiffer⟩

/-- White space around `=` makes generation take the value of an attribute for the name of another one. -/
theorem attributeNames_of_spaced_equals :
    ∃ n ∈ (parse .component (.anonymous "<p a = \"x\" @onclick=\"f\"></p>")).root.nodes,
      n.kind? = some .startTag ∧ Attribute.plainNames n.attributes = ["a".toList, "x".toList] ∧ n.startTagNames.2 = ["a".toList] := by
  decide +kernel

end ParsedDocument

end RazorLang
