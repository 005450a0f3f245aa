import RazorLang.Proofs.Token.Flaws
import RazorLang.Proofs.Token.Lossless

/-!
# Tokens of markup

A character that ends a run of text and is no white space stands in a token of markup only as its first one
(`Html.eq_of_mem_cut`). So the tokens that are not of Razor have no `@` in them, and behind each of them the
tokenizer of markup remembers nothing (`Tokenizer.next?_of_not_isRazor`).
-/

namespace RazorLang

/-- The tokens that transitions and comments of Razor are made of, in either language. -/
def TokenKind.IsRazor (kind : TokenKind) : Prop := kind = .transition ∨ kind.isRazorComment = true

instance (kind : TokenKind) : Decidable kind.IsRazor := inferInstanceAs (Decidable (_ ∨ _))

namespace Html

variable {c x : Char} {rest : Text}

/-- Behind the first character of a token stands white space, the second of two hyphens, or text. -/
theorem inside_cut (h : x ∈ rest.take (cut c rest).more) :
    Text.isSpace x = true ∨ (x = '-' ∧ c = '-') ∨ ((cut c rest).kind = .text ∧ endsText x = false) := by
  have hcut := isCut_cut c rest
  generalize cut c rest = k at hcut h ⊢
  cases hcut with
  | lineBreak =>
      rw [Cut.eq_of_mem_lineBreak h]
      exact Or.inl (by decide)
  | space => exact Or.inl (Bool.and_eq_true_iff.mp (Cut.isInlineSpace_of_mem h)).1
  | transition =>
      rw [Cut.more_transition] at h
      exact absurd h List.not_mem_nil
  | single => exact absurd h List.not_mem_nil
  | doubleHyphen => exact Or.inr (Or.inl ⟨List.mem_singleton.mp h, rfl⟩)
  | text =>
      refine Or.inr (Or.inr ⟨rfl, Bool.eq_false_iff.mpr fun hends => ?_⟩)
      exact notMem_textTail hends _ h

/-- What is a token of its own is not inside of another one. -/
theorem eq_of_mem_cut (hx : endsText x = true) (hspace : Text.isSpace x = false)
    (h : x ∈ c :: rest.take (cut c rest).more) : x = c := by
  rcases List.mem_cons.mp h with h | h
  · exact h
  rcases inside_cut h with hblank | ⟨rfl, rfl⟩ | ⟨-, htext⟩
  · exact absurd hblank (Bool.eq_false_iff.mp hspace)
  · rfl
  · exact absurd hx (Bool.eq_false_iff.mp htext)

/-- A character of no other sort begins text. -/
theorem kind_cut_text (hc : endsText c = false) (hhyphen : c ≠ '-') : (cut c rest).kind = .text := by
  obtain ⟨hrest, hspace⟩ := Bool.or_eq_false_iff.mp hc
  obtain ⟨hat, hsingle⟩ := Bool.or_eq_false_iff.mp hrest
  have hcut := isCut_cut c rest
  generalize cut c rest = k at hcut ⊢
  cases hcut with
  | lineBreak starts => exact absurd (Text.isSpace_of_isLineBreak starts) (Bool.eq_false_iff.mp hspace)
  | space inline blank => exact absurd blank (Bool.eq_false_iff.mp hspace)
  | transition => exact absurd rfl (beq_eq_false_iff_ne.mp hat)
  | single black alone =>
      rw [alone] at hsingle
      exact absurd hsingle Bool.true_eq_false.mp
  | doubleHyphen => exact absurd rfl hhyphen
  | text => rfl

/-- Such a character is in no token of another kind. -/
theorem notMem_cut (hx : endsText x = false) (hhyphen : x ≠ '-') (hkind : (cut c rest).kind ≠ .text) :
    x ∉ c :: rest.take (cut c rest).more := by
  intro h
  rcases List.mem_cons.mp h with rfl | h
  · exact hkind (kind_cut_text hx hhyphen)
  rcases inside_cut h with hblank | ⟨heq, -⟩ | ⟨htext, -⟩
  · exact absurd hblank (Bool.eq_false_iff.mp (Bool.or_eq_false_iff.mp hx).2)
  · exact hhyphen heq
  · exact hkind htext

theorem isRazor_cut_at : (cut '@' rest).kind.IsRazor :=
  (Cut.kind_transition rest).imp_right (congrArg TokenKind.isRazorComment)

/-- A token that is not of Razor leaves nothing to remember. -/
theorem cut_of_not_isRazor (h : ¬ (cut c rest).kind.IsRazor) : c ≠ '@' ∧ (cut c rest).mode = .data := by
  have hc : c ≠ '@' := by
    rintro rfl
    exact h isRazor_cut_at
  refine ⟨hc, ?_⟩
  have hcut := isCut_cut c rest
  generalize cut c rest = k at hcut ⊢
  cases hcut with
  | lineBreak => exact Cut.mode_lineBreak c rest
  | transition => exact absurd rfl hc
  | _ => rfl

theorem not_isRazor_of_single? {kind : TokenKind} (h : single? c = some kind) : ¬ kind.IsRazor := by
  unfold single? at h
  split at h
  all_goals cases h
  all_goals decide

theorem not_isRazor_cut (h : c ≠ '@') : ¬ (cut c rest).kind.IsRazor := by
  have hcut := isCut_cut c rest
  generalize cut c rest = k at hcut ⊢
  cases hcut with
  | lineBreak =>
      rw [Cut.kind_lineBreak]
      decide
  | space => exact (by decide : ¬ TokenKind.IsRazor .whitespace)
  | transition => exact absurd rfl h
  | single black alone => exact not_isRazor_of_single? alone
  | doubleHyphen => exact (by decide : ¬ TokenKind.IsRazor .doubleHyphen)
  | text => exact (by decide : ¬ TokenKind.IsRazor .text)

/-- How the tokens of a kind are written in markup, if all of them are written alike. -/
def spelling? : TokenKind → Option Text
  | .openAngle => some ['<']
  | .closeAngle => some ['>']
  | .slash => some ['/']
  | .bang => some ['!']
  | .questionMark => some ['?']
  | .equals => some ['=']
  | .doubleQuote => some ['"']
  | .singleQuote => some ['\'']
  | .openBracket => some ['[']
  | .closeBracket => some [']']
  | .doubleHyphen => some ['-', '-']
  | _ => none

theorem spelling?_of_single? {kind : TokenKind} (h : single? c = some kind) : spelling? kind = some [c] := by
  unfold single? at h
  split at h
  all_goals cases h
  all_goals rfl

theorem cut_spelling {t : Text} (h : spelling? (cut c rest).kind = some t) :
    c :: rest.take (cut c rest).more = t := by
  have hcut := isCut_cut c rest
  generalize cut c rest = k at hcut h ⊢
  cases hcut with
  | lineBreak =>
      rw [Cut.kind_lineBreak] at h
      exact nomatch h
  | space => exact nomatch h
  | transition => rcases Cut.kind_transition rest with hkind | hkind <;> exact nomatch hkind ▸ h
  | single black alone => exact Option.some.inj ((spelling?_of_single? alone).symm.trans h)
  | doubleHyphen => exact Option.some.inj h
  | text => exact nomatch h

end Html

namespace Tokenizer

variable {s s' : Tokenizer} {t : Token} {c : Char} {rest : Text}

/-- Where nothing is remembered, the rules of the language alone cut the next token. -/
theorem next?_of_data (hmode : s.mode = .data) (hrest : s.rest = c :: rest) {k : Cut}
    (hcut : cut s.language .data c rest = k) :
    s.next? = some (s.emit k.kind k.flaw (c :: rest.take k.more) (rest.drop k.more) k.mode) := by
  unfold next?
  rw [if_neg (by rw [hmode]; decide), hrest]
  show some (s.emit (cut s.language s.mode c rest).kind _ _ _ _) = _
  rw [hmode, hcut]

theorem next?_html (hlanguage : s.language = .html) (hmode : s.mode = .data) (hrest : s.rest = c :: rest) :
    s.next? = some (s.emit (Html.cut c rest).kind (Html.cut c rest).flaw
      (c :: rest.take (Html.cut c rest).more) (rest.drop (Html.cut c rest).more) (Html.cut c rest).mode) :=
  next?_of_data hmode hrest (by rw [hlanguage]; rfl)

/-- All tokens but the bodies of comments are cut off the text ahead. -/
theorem exists_cut_of_next? (h : s.next? = some (t, s')) (hkind : t.kind ≠ .commentBody) :
    ∃ c rest, s.rest = c :: rest ∧
      (t, s') = s.emit (cut s.language s.mode c rest).kind (cut s.language s.mode c rest).flaw
        (c :: rest.take (cut s.language s.mode c rest).more)
        (rest.drop (cut s.language s.mode c rest).more) (cut s.language s.mode c rest).mode := by
  unfold next? at h
  split at h
  · have hcomment := s.nextBody_kind
    rw [Option.some.inj h] at hcomment
    exact absurd hcomment hkind
  · split at h
    · exact nomatch h
    · next c rest hrest => exact ⟨c, rest, hrest, (Option.some.inj h).symm⟩

/-- What is remembered matters for the second `@` of a pair and for the parts of comments alone. -/
theorem cut_html (mode : Mode) (c : Char) (rest : Text) :
    cut .html mode c rest = Html.cut c rest ∨ ((cut .html mode c rest).kind.IsRazor ∧
      ((cut .html mode c rest).kind = .transition → c = '@' ∧ (cut .html mode c rest).more = 0)) := by
  unfold cut
  split
  · exact Or.inr ⟨Or.inr rfl, nofun⟩
  · exact Or.inr ⟨Or.inl rfl, fun _ => ⟨rfl, rfl⟩⟩
  · exact Or.inr ⟨Or.inr rfl, nofun⟩
  · exact Or.inr ⟨Or.inr rfl, nofun⟩
  · exact Or.inl rfl

/-- The rules of markup alone cut each token that is not of Razor, and nothing is remembered behind it. -/
theorem next?_of_not_isRazor (hlanguage : s.language = .html) (h : s.next? = some (t, s'))
    (hkind : ¬ t.kind.IsRazor) :
    ∃ c rest, s.rest = c :: rest ∧ c ≠ '@' ∧ t.kind = (Html.cut c rest).kind ∧
      t.content = c :: rest.take (Html.cut c rest).more ∧ t.flaw = none ∧ s'.mode = .data ∧
      s'.language = .html := by
  obtain ⟨c, rest, hrest, hemit⟩ := exists_cut_of_next? h fun hbody => hkind (Or.inr (by rw [hbody]; rfl))
  obtain ⟨rfl, rfl⟩ := Prod.mk.inj hemit
  have hcut : cut s.language s.mode c rest = Html.cut c rest := by
    change ¬ (cut s.language s.mode c rest).kind.IsRazor at hkind
    rw [hlanguage] at hkind ⊢
    exact (cut_html s.mode c rest).resolve_right fun hrazor => hkind hrazor.1
  rw [hcut] at hkind ⊢
  obtain ⟨hc, hmode⟩ := Html.cut_of_not_isRazor hkind
  exact ⟨c, rest, hrest, hc, rfl, rfl, Html.flaw_cut c rest, hmode, hlanguage⟩

/-- A transition of markup is the character `@`. -/
theorem next?_of_transition (hlanguage : s.language = .html) (h : s.next? = some (t, s'))
    (hkind : t.kind = .transition) : t.content = ['@'] ∧ s'.language = .html := by
  obtain ⟨c, rest, hrest, hemit⟩ := exists_cut_of_next? h (by rw [hkind]; decide)
  obtain ⟨rfl, rfl⟩ := Prod.mk.inj hemit
  refine ⟨?_, hlanguage⟩
  change (cut s.language s.mode c rest).kind = .transition at hkind
  show c :: rest.take (cut s.language s.mode c rest).more = ['@']
  rw [hlanguage] at hkind ⊢
  rcases cut_html s.mode c rest with hcut | ⟨-, hcut⟩
  · rw [hcut] at hkind ⊢
    obtain rfl : c = '@' := by
      by_contra hc
      exact Html.not_isRazor_cut hc (Or.inl hkind)
    show '@' :: rest.take (Cut.transition rest).more = ['@']
    rw [Cut.more_transition, List.take_zero]
  · obtain ⟨rfl, hmore⟩ := hcut hkind
    rw [hmore, List.take_zero]

end Tokenizer

end RazorLang
