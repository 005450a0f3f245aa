import RazorLang.Proofs.Grammar.TagDerivation
import RazorLang.Proofs.Token.Restart

/-!
# What start tags begin with

A start tag begins with its `<` and its name, and none of its texts begins with `@`, since that character is never
part of a text of markup. Along the tag the reader stays in markup: code and comments that it comes to become
nodes, and behind them it goes on in markup (`InTag`).

Main statement: `ParsedDocument.beginsTag_of_parse`.
-/

namespace RazorLang

open RazorLang.Tree RazorLang.Grammar Reader

namespace Tree

/-- No text among some trees begins with `@`. -/
def PlainTexts (trees : List Tree) : Prop :=
  ∀ t, Tree.token t ∈ trees → t.kind = .text → t.content.head? ≠ some '@'

/-- A start tag begins with `<` and its name, and what follows them has no text that begins with `@`. -/
def BeginsTag (n : Tree) : Prop :=
  ∃ mark first more, n.children = .token mark :: .token first :: more ∧ mark.kind = .openAngle ∧
    first.kind = .text ∧ PlainTexts more

namespace PlainTexts

variable {trees : List Tree}

theorem append {us : List Tree} (h : PlainTexts trees) (hus : PlainTexts us) : PlainTexts (trees ++ us) := by
  intro t ht hkind
  rcases List.mem_append.mp ht with ht | ht
  · exact h t ht hkind
  · exact hus t ht hkind

theorem mono {us : List Tree} (h : PlainTexts trees) (hus : us ⊆ trees) : PlainTexts us :=
  fun t ht => h t (hus ht)

theorem node {t : Tree} {kind : NodeKind} (h : t.kind? = some kind) : PlainTexts [t] := by
  intro u hu
  rw [← List.mem_singleton.mp hu] at h
  exact nomatch h

theorem tokens {ts : List Token} (h : ∀ t ∈ ts, t.kind = .text → t.content.head? ≠ some '@') :
    PlainTexts (ts.map Tree.token) := by
  intro t ht
  obtain ⟨u, hu, heq⟩ := List.mem_map.mp ht
  obtain rfl := Tree.token.inj heq
  exact h u hu

end PlainTexts

end Tree

namespace Grammar

variable {c : Surroundings} {r : Reader} {s : StartTagState} {lead : List Tree}

/-- How far a start tag has been read: the reader is in markup, and behind what the tag begins with no text begins
    with `@`. -/
structure InTag (lead : List Tree) (s : StartTagState) (r : Reader) : Prop where
  language : r.tokenizer.language = .html
  trees : ∃ more, s.trees = lead ++ more ∧ PlainTexts more

/-- What is taken in markup is no text that begins with `@`. -/
theorem bump_plain (hlanguage : r.tokenizer.language = .html) :
    Gives bump r fun ts r' => r'.tokenizer.language = .html ∧ PlainTexts (ts.map Tree.token) := by
  unfold Gives
  cases hnext : r.tokenizer.next? with
  | none =>
      rw [bump_end hnext]
      exact ⟨hlanguage, PlainTexts.tokens nofun⟩
  | some next =>
      obtain ⟨t, s⟩ := next
      rw [bump_eq hnext]
      refine ⟨(Tokenizer.language_of_next? hnext).trans hlanguage, PlainTexts.tokens ?_⟩
      intro u hu hkind
      obtain rfl := List.mem_singleton.mp hu
      have hplain : ¬ u.kind.IsRazor := by
        rw [hkind]
        decide
      obtain ⟨c, rest, -, hc, -, hcontent, -⟩ := Tokenizer.next?_of_not_isRazor hlanguage hnext hplain
      rw [hcontent]
      exact fun hat => hc (Option.some.inj hat)

theorem take_plain (n : Nat) (hlanguage : r.tokenizer.language = .html) :
    Gives (take n) r fun ts r' => r'.tokenizer.language = .html ∧ PlainTexts (ts.map Tree.token) := by
  induction n generalizing r with
  | zero => exact ⟨hlanguage, PlainTexts.tokens nofun⟩
  | succ n ih =>
      rw [take, gives_bind]
      refine (bump_plain hlanguage).mono ?_
      rintro first r₁ ⟨hlanguage₁, hfirst⟩
      rw [gives_bind]
      refine (ih hlanguage₁).mono ?_
      rintro rest r₂ ⟨hlanguage₂, hrest⟩
      rw [gives_pure, List.map_append]
      exact ⟨hlanguage₂, hfirst.append hrest⟩

/-- Behind a comment the reader goes on in its language. -/
theorem razorComment_language (r : Reader) :
    Gives razorComment r fun t r' =>
      t.kind? = some .razorComment ∧ r'.tokenizer.language = r.tokenizer.language := by
  unfold razorComment
  rw [gives_bind]
  refine (gives_loop_keeps (I := fun (_ : List Token × Nat) r' => r'.tokenizer.language = r.tokenizer.language)
    (fun _ _ h => h) ?_ rfl).mono ?_
  · rintro ⟨tokens, transitions⟩ r' h
    rw [gives_bind, gives_kind?]
    split
    · exact h
    · split
      · exact h
      · rw [gives_bind]
        unfold Gives
        cases hnext : r'.tokenizer.next? with
        | none =>
            rw [bump_end hnext]
            exact h
        | some next =>
            rw [bump_eq hnext]
            exact (Tokenizer.language_of_next? hnext).trans h
  · rintro ⟨tokens, transitions⟩ r' h
    exact ⟨rfl, h⟩

theorem InTag.add (h : InTag lead s r) {r' : Reader} {us : List Tree} {s' : StartTagState}
    (hlanguage : r'.tokenizer.language = .html) (hus : PlainTexts us) (htrees : s'.trees = s.trees ++ us) :
    InTag lead s' r' := by
  obtain ⟨more, hmore, hplain⟩ := h.trees
  refine ⟨hlanguage, more ++ us, ?_, hplain.append hus⟩
  rw [htrees, hmore, List.append_assoc]

theorem startTagTurn_inTag (h : InTag lead s r) :
    Gives (startTagTurn c s) r fun t r' => InTag lead t.value r' := by
  -- most turns take some tokens as they are
  have htake {g : Grammar (List Token)} {f : List Token → Turn StartTagState}
      (hg : Gives g r fun ts r' => r'.tokenizer.language = .html ∧ PlainTexts (ts.map Tree.token))
      (hf : ∀ ts, (f ts).value.trees = s.trees ++ ts.map Tree.token) :
      Gives (do return f (← g)) r fun t r' => InTag lead t.value r' := by
    rw [gives_bind]
    refine hg.mono ?_
    rintro ts r' ⟨hlanguage, hplain⟩
    exact h.add hlanguage hplain (hf ts)
  have hbump := bump_plain h.language
  refine gives_startTagTurn fun g hmove => ?_
  cases hmove with
  | stop => exact h
  | token | mark | close => exact htake hbump fun _ => rfl
  | selfClose => exact htake (take_plain 2 h.language) fun _ => rfl
  | code =>
      -- behind code the reader is switched back to markup
      rw [gives_bind]
      refine (codeTransition_kind c r).mono fun code r₁ hcode => ?_
      rw [gives_bind]
      refine (switchTo_language .html r₁).mono fun _ r₂ hlanguage => ?_
      exact h.add hlanguage (PlainTexts.node hcode) rfl
  | comment =>
      rw [gives_bind]
      refine (razorComment_language r).mono ?_
      rintro comment r₁ ⟨hcomment, hlanguage⟩
      exact h.add (hlanguage.trans h.language) (PlainTexts.node hcomment) rfl

/-- What the rule for start tags reads begins with `<` and a name. -/
theorem IsStartTag.begins {n : Tree} (h : IsStartTag n) : n.BeginsTag := by
  obtain ⟨c, textTag, r, name, closing, -, hat, htag⟩ := h
  have hbegins : Gives (startTag c textTag) r fun t _ =>
      ∃ name n closing, t = .opening name n closing ∧ n.BeginsTag := by
    unfold startTag
    rw [gives_bind, gives_here, gives_bind]
    refine ((take_kinds hat.angle hat.name).and (take_plain 2 hat.language)).mono ?_
    rintro ts r₁ ⟨⟨mark, first, rfl, hmark, hfirst, -⟩, hlanguage, -⟩
    have hstart : InTag [.token mark, .token first] { trees := [.token mark, .token first] } r₁ :=
      ⟨hlanguage, [], rfl, nofun⟩
    rw [gives_bind]
    refine (gives_loop_keeps (fun _ _ h => ⟨h.language, h.trees⟩)
      (fun _ _ h => startTagTurn_inTag (c := c) h) hstart).mono ?_
    rintro s r₂ hin
    obtain ⟨more, htrees, hplain⟩ := hin.trees
    refine ⟨_, _, _, rfl, mark, first, more, ?_, hmark, hfirst, hplain⟩
    exact htrees
  unfold Gives at hbegins
  rw [htag] at hbegins
  obtain ⟨_, _, _, heq, hbegins⟩ := hbegins
  obtain ⟨-, rfl, -⟩ := Tag.opening.inj heq
  exact hbegins

end Grammar

namespace ParsedDocument

/-- Each start tag of a document begins with `<` and its name, and its other texts do not begin with `@`. -/
theorem beginsTag_of_parse (kind : FileKind) (d : Source) {n : Tree} (hn : n ∈ (parse kind d).root.nodes)
    (htag : n.kind? = some .startTag) : n.BeginsTag := by
  have hadmits : Admits fun n => n.kind? = some .startTag → IsStartTag n :=
    { node := fun _ _ _ hne heq => absurd heq hne
      startTag := fun _ _ _ h _ => h
      hollow := fun _ _ hhollow heq => nomatch hhollow.kind.symm.trans heq }
  exact (nodes_parse hadmits kind d n hn htag).begins

end ParsedDocument

end RazorLang
