import Mathlib.Data.List.TakeWhile
import RazorLang.Proofs.Source.Lines
import RazorLang.Proofs.Token.Lexeme
import RazorLang.Token.Tokenizer

/-!
# Where tokens end

Main statement: `Tokenizer.isWhole_cut` — no token of either language ends between the two characters of a
`\r\n`. Most tokens have no `\r` at all among the characters that are counted for them; those that do end
with a quote, with the end of a comment, or with the text.
-/

namespace RazorLang

open Text

/-! ## Counting characters -/

/-- The first `n` characters of a text are the whole of it, or do not end with a `\r`. -/
def Text.EndsWell (t : Text) (n : Nat) : Prop :=
  t.length ≤ n ∨ (t.take n).getLast? ≠ some '\r'

namespace Text

theorem endsWell_of_not_mem {t : Text} {n : Nat} (h : '\r' ∉ t.take n) : EndsWell t n :=
  Or.inr fun hlast => h (List.mem_of_getLast? hlast)

theorem not_partsBreak_of_endsWell {t : Text} {n : Nat} (h : EndsWell t n) :
    ¬ PartsBreak (t.take n) (t.drop n) := by
  rintro ⟨hlast, hhead⟩
  rcases h with hall | hnot
  · rw [List.drop_eq_nil_of_le hall] at hhead
    exact nomatch hhead
  · exact hnot hlast

/-- What is counted in two parts ends well if the second part does. -/
theorem endsWell_add {t : Text} {m n : Nat} (h : EndsWell (t.drop m) n) (hm : '\r' ∉ t.take m) :
    EndsWell t (m + n) := by
  rcases h with hall | hnot
  · refine Or.inl ?_
    rw [List.length_drop] at hall
    omega
  · refine Or.inr ?_
    rw [List.take_add, List.getLast?_append]
    cases hlast : ((t.drop m).take n).getLast? with
    | none =>
        intro hreturn
        exact hm (List.mem_of_getLast? hreturn)
    | some c =>
        rw [hlast] at hnot
        exact hnot

theorem not_mem_take_add {t : Text} {m n : Nat} (hm : '\r' ∉ t.take m)
    (hn : '\r' ∉ (t.drop m).take n) : '\r' ∉ t.take (m + n) := by
  rw [List.take_add, List.mem_append]
  exact fun h => h.elim hm hn

theorem not_mem_takeWhile {p : Char → Bool} (hp : p '\r' = false) (t : Text) :
    '\r' ∉ t.takeWhile p := by
  intro h
  have hreturn : p '\r' = true := List.mem_takeWhile_imp h
  rw [hp] at hreturn
  exact nomatch hreturn

/-- Characters that are counted by a property that `\r` does not have. -/
theorem not_mem_take_takeWhile {p : Char → Bool} (hp : p '\r' = false) (t : Text) :
    '\r' ∉ t.take (t.takeWhile p).length := by
  rw [← List.prefix_iff_eq_take.mp (List.takeWhile_prefix p)]
  exact not_mem_takeWhile hp t

end Text

/-! ## Literals and comments of C# -/

namespace CSharp

theorem quotedTail_not_mem {quote : Char} (hquote : quote ≠ '\r') (t : Text) :
    '\r' ∉ t.take (quotedTail quote t).1 := by
  have hends {c : Char} (h : (c == quote) = true) : '\r' ≠ c := fun heq =>
    hquote ((beq_iff_eq.mp h).symm.trans heq.symm)
  have hescapes {c : Char} (h : (c == '\\') = true) : '\r' ≠ c := fun heq => nomatch heq.trans (beq_iff_eq.mp h)
  have hgoes {c : Char} (h : ¬ isLineBreak c = true) : '\r' ≠ c := fun heq => h (heq ▸ rfl)
  fun_induction quotedTail quote t with
  | case1 => exact List.not_mem_nil
  | case2 c h => exact List.not_mem_cons_of_ne_of_not_mem (hends h) List.not_mem_nil
  | case3 c hc hbreak => exact List.not_mem_nil
  | case4 c hc hbreak => exact List.not_mem_cons_of_ne_of_not_mem (hgoes hbreak) List.not_mem_nil
  | case5 c d t hc hbreak => exact List.not_mem_cons_of_ne_of_not_mem (hescapes hc) List.not_mem_nil
  | case6 c d t hc hbreak n closed hn ih =>
      rw [hn] at ih
      rw [List.take_succ_cons, List.take_succ_cons]
      exact List.not_mem_cons_of_ne_of_not_mem (hescapes hc) (List.not_mem_cons_of_ne_of_not_mem (hgoes hbreak) ih)
  | case7 c d t hc h => exact List.not_mem_cons_of_ne_of_not_mem (hends h) List.not_mem_nil
  | case8 c d t hc h hbreak => exact List.not_mem_nil
  | case9 c d t hc h hbreak n closed hn ih =>
      rw [hn] at ih
      rw [List.take_succ_cons]
      exact List.not_mem_cons_of_ne_of_not_mem (hgoes hbreak) ih

/-- A verbatim string ends with the text or with a quote. -/
theorem verbatimTail_end (t : Text) :
    t.length ≤ (verbatimTail t).1 ∨ (t.take (verbatimTail t).1).getLast? = some '"' := by
  fun_induction verbatimTail t with
  | case1 => exact Or.inl (Nat.le_refl _)
  | case2 t n closed hn ih =>
      rw [hn] at ih
      rcases ih with hall | hlast
      · exact Or.inl (by simpa using hall)
      · refine Or.inr ?_
        rw [List.take_succ_cons, List.take_succ_cons, List.getLast?_cons, List.getLast?_cons, hlast]
        rfl
  | case3 t h => exact Or.inr rfl
  | case4 c t hdouble hsingle n closed hn ih =>
      rw [hn] at ih
      rcases ih with hall | hlast
      · exact Or.inl (by simpa using hall)
      · refine Or.inr ?_
        rw [List.take_succ_cons, List.getLast?_cons, hlast]
        rfl

/-- Where a text occurs in another one, the other one goes on with it. -/
theorem indexOf?_prefix {t u : Text} {n : Nat} (h : indexOf? u t = some n) :
    u <+: t.drop n := by
  induction t generalizing n with
  | nil =>
      rw [indexOf?] at h
      split at h
      · next hu =>
          rw [List.isEmpty_iff.mp hu]
          exact List.nil_prefix
      · exact nomatch h
  | cons c t ih =>
      rw [indexOf?] at h
      split at h
      · next hu =>
          rw [← Option.some.inj h]
          exact List.isPrefixOf_iff_prefix.mp hu
      · obtain ⟨m, hm, rfl⟩ := Option.map_eq_some_iff.mp h
        exact ih hm

end CSharp

/-! ## Lexemes of C# -/

namespace Lexeme

theorem countWhile_not_mem {p : Char → Bool} (hp : p '\r' = false) (t : Text) :
    '\r' ∉ t.take (countWhile p t) :=
  not_mem_take_takeWhile hp t

theorem not_mem_of_isVisible {t : Text} (h : ∀ c ∈ t, isVisible c = true) : '\r' ∉ t :=
  fun hmem => nomatch h '\r' hmem

/-- The lexeme at the front of a text that does not start with a line break has none. -/
theorem lead?_not_mem {c : Char} {rest : Text} {l : Lexeme} (h : lead? (c :: rest) = some l)
    (hc : c ≠ '\r') : '\r' ∉ (c :: rest).take l.count := by
  cases isLead_of_lead? h with
  | identifier starts => exact countWhile_not_mem (by decide) _
  | number word starts =>
      rw [count_number]
      exact not_mem_of_isVisible (counts_numberLength.visible _)
  | symbol word digits found =>
      rw [← List.prefix_iff_eq_take.mp (isPrefix_spelling found)]
      exact not_mem_of_isVisible (isVisible_of_mem_spelling _)
  | unknown word digits missing => simpa using hc.symm

end Lexeme

/-! ## Cuts -/

theorem Text.isSpace_of_isLineBreak {c : Char} (h : isLineBreak c = true) : isSpace c = true := by
  rw [isLineBreak, Bool.or_eq_true, beq_iff_eq, beq_iff_eq] at h
  rcases h with rfl | rfl
  · rfl
  · rfl

namespace Cut

section Shared

variable (c : Char) (rest : Text)

theorem kind_lineBreak : (lineBreak c rest).kind = .newLine := by
  unfold lineBreak
  split <;> rfl

theorem flaw_lineBreak : (lineBreak c rest).flaw = none := by
  unfold lineBreak
  split <;> rfl

theorem mode_lineBreak : (lineBreak c rest).mode = .data := by
  unfold lineBreak
  split <;> rfl

theorem more_transition : (transition rest).more = 0 := by
  unfold transition
  split <;> rfl

theorem flaw_transition : (transition rest).flaw = none := by
  unfold transition
  split <;> rfl

theorem kind_transition :
    (transition rest).kind = .transition ∨ (transition rest).kind = .commentTransition := by
  unfold transition
  split
  · exact Or.inr rfl
  · exact Or.inl rfl
  · exact Or.inl rfl

variable {c rest} {x : Char}

/-- Behind the first character of a line break stands at most its line feed. -/
theorem eq_of_mem_lineBreak (h : x ∈ rest.take (lineBreak c rest).more) : x = '\n' := by
  unfold lineBreak at h
  split at h
  · exact List.mem_singleton.mp h
  · exact absurd h List.not_mem_nil

theorem isInlineSpace_of_mem (h : x ∈ rest.take (inlineSpace rest).more) : isInlineSpace x = true := by
  rw [inlineSpace, ← List.prefix_iff_eq_take.mp (List.takeWhile_prefix isInlineSpace)] at h
  exact List.mem_takeWhile_imp h

end Shared

/-- The token that a cut takes off a text, given by its first character and the rest, does not end
    inside of a line break. -/
def IsWhole (k : Cut) (c : Char) (rest : Text) : Prop :=
  ¬ PartsBreak (c :: rest.take k.more) (rest.drop k.more)

variable {k : Cut} {c : Char} {rest : Text}

theorem isWhole_of_endsWell (h : Text.EndsWell (c :: rest) (k.more + 1)) : k.IsWhole c rest :=
  not_partsBreak_of_endsWell h

theorem isWhole_of_more_eq_zero (hk : k.more = 0) (hc : c ≠ '\r') : k.IsWhole c rest := by
  refine isWhole_of_endsWell (endsWell_of_not_mem ?_)
  rw [hk]
  simpa using hc.symm

theorem isWhole_ofCount {kind : TokenKind} {flaw : Option Flaw} {n : Nat}
    (h : Text.EndsWell (c :: rest) n) (hc : c ≠ '\r') : (ofCount kind n flaw).IsWhole c rest := by
  cases n with
  | zero => exact isWhole_of_more_eq_zero rfl hc
  | succ n => exact isWhole_of_endsWell h

theorem isWhole_transition (hc : c ≠ '\r') : (transition rest).IsWhole c rest :=
  isWhole_of_more_eq_zero (more_transition rest) hc

theorem isWhole_lineBreak : (lineBreak c rest).IsWhole c rest := by
  unfold lineBreak
  split
  · exact isWhole_of_endsWell (Or.inr (by simp))
  · next hnot =>
      rintro ⟨hlast, hhead⟩
      cases rest with
      | nil => exact nomatch hhead
      | cons d u =>
          have hc : c = '\r' := Option.some.inj hlast
          have hd : d = '\n' := Option.some.inj hhead
          rw [hc, hd] at hnot
          exact hnot u rfl rfl

theorem isWhole_inlineSpace (hc : c ≠ '\r') : (inlineSpace rest).IsWhole c rest := by
  refine isWhole_of_endsWell (endsWell_of_not_mem ?_)
  rw [List.take_succ_cons, List.mem_cons]
  rintro (h | h)
  · exact hc h.symm
  · exact absurd (isInlineSpace_of_mem h) (by decide)

end Cut

namespace CSharp

variable {c : Char} {rest : Text}

theorem isWhole_quoted {quote : Char} {kind : TokenKind} {flaw : Flaw} {lead : Nat}
    (hquote : quote ≠ '\r') (hlead : '\r' ∉ (c :: rest).take lead) (hc : c ≠ '\r') :
    (quoted quote kind flaw lead (c :: rest)).IsWhole c rest := by
  unfold quoted
  exact Cut.isWhole_ofCount
    (endsWell_of_not_mem (not_mem_take_add hlead (quotedTail_not_mem hquote _))) hc

theorem isWhole_verbatim {lead : Nat} (hlead : '\r' ∉ (c :: rest).take lead) (hc : c ≠ '\r') :
    (verbatim lead (c :: rest)).IsWhole c rest := by
  unfold verbatim
  refine Cut.isWhole_ofCount (endsWell_add ?_ hlead) hc
  rcases verbatimTail_end ((c :: rest).drop lead) with hall | hquote
  · exact Or.inl hall
  · refine Or.inr ?_
    rw [hquote]
    decide

theorem isWhole_blockComment (hc : c ≠ '\r') : (blockComment (c :: rest)).IsWhole c rest := by
  unfold blockComment
  split
  · next n hn =>
      obtain ⟨behind, hbehind⟩ := indexOf?_prefix hn
      refine Cut.isWhole_ofCount (Or.inr ?_) hc
      rw [List.drop_drop] at hbehind
      rw [show n + 4 = (2 + n) + 2 from by omega, List.take_add, ← hbehind, List.getLast?_append]
      show some '/' ≠ some '\r'
      decide
  · exact Cut.isWhole_ofCount (Or.inl (Nat.le_refl _)) hc

theorem isWhole_lexeme (hc : c ≠ '\r') : (lexeme (c :: rest)).IsWhole c rest := by
  unfold lexeme
  split
  · next l hl => exact Cut.isWhole_ofCount (endsWell_of_not_mem (Lexeme.lead?_not_mem hl hc)) hc
  · exact Cut.isWhole_of_more_eq_zero rfl hc

theorem isWhole_cut : (cut c rest).IsWhole c rest := by
  unfold cut
  dsimp only
  split
  · exact Cut.isWhole_lineBreak
  · next hbreak =>
      have hc : c ≠ '\r' := by
        rintro rfl
        exact hbreak rfl
      split
      · exact Cut.isWhole_inlineSpace hc
      · split
        · exact isWhole_verbatim (by simp) hc
        · exact isWhole_verbatim (by simp) hc
        · exact Cut.isWhole_transition hc
        · exact isWhole_quoted (by decide) (by simp) hc
        · exact isWhole_quoted (by decide) (by simp) hc
        · exact isWhole_quoted (by decide) (by simp) hc
        · exact isWhole_verbatim (by simp) hc
        · exact isWhole_blockComment hc
        · exact Cut.isWhole_ofCount
            (endsWell_of_not_mem (not_mem_take_takeWhile (by decide) _)) hc
        · exact isWhole_lexeme hc

end CSharp

namespace Html

/-- How the token at the front of a text of markup is cut off. -/
inductive IsCut : Char → Text → Cut → Prop where
  | lineBreak {c : Char} {rest : Text} (starts : isLineBreak c = true) : IsCut c rest (Cut.lineBreak c rest)
  | space {c : Char} {rest : Text} (inline : isLineBreak c = false) (blank : isSpace c = true) :
      IsCut c rest (Cut.inlineSpace rest)
  | transition {rest : Text} : IsCut '@' rest (Cut.transition rest)
  | single {c : Char} {rest : Text} {kind : TokenKind} (black : isSpace c = false) (alone : single? c = some kind) :
      IsCut c rest { kind }
  | doubleHyphen {rest : Text} : IsCut '-' ('-' :: rest) { kind := .doubleHyphen, more := 1 }
  | text {c : Char} {rest : Text} (black : isSpace c = false) (mark : c ≠ '@') (alone : single? c = none) :
      IsCut c rest { kind := .text, more := textTail rest }

theorem isCut_cut (c : Char) (rest : Text) : IsCut c rest (cut c rest) := by
  unfold cut
  split
  · next starts => exact .lineBreak starts
  · next inline =>
      split
      · next blank => exact .space (Bool.eq_false_iff.mpr inline) blank
      · next black =>
          have black := Bool.eq_false_iff.mpr black
          split
          · next mark =>
              rw [beq_iff_eq.mp mark]
              exact .transition
          · next mark =>
              split
              · next alone => exact .single black alone
              · exact .doubleHyphen
              · next alone => exact .text black (fun h => mark (beq_iff_eq.mpr h)) alone

theorem notMem_textTail {x : Char} (hx : endsText x = true) (t : Text) : x ∉ t.take (textTail t) := by
  fun_induction textTail t with
  | case1 => exact List.not_mem_nil
  | case2 t => exact List.not_mem_nil
  | case3 c t _ _ => exact List.not_mem_nil
  | case4 c t _ hends ih =>
      rw [List.take_succ_cons, List.mem_cons]
      rintro (rfl | h)
      · exact hends hx
      · exact ih h

theorem isWhole_cut {c : Char} {rest : Text} : (cut c rest).IsWhole c rest := by
  have hcut := isCut_cut c rest
  generalize cut c rest = k at hcut ⊢
  cases hcut with
  | lineBreak => exact Cut.isWhole_lineBreak
  | space inline => exact Cut.isWhole_inlineSpace fun h => absurd inline (by rw [h]; decide)
  | transition => exact Cut.isWhole_transition (by decide)
  | single black => exact Cut.isWhole_of_more_eq_zero rfl fun h => absurd black (by rw [h]; decide)
  | doubleHyphen => exact Cut.isWhole_of_endsWell (endsWell_of_not_mem (by simp))
  | text black =>
      refine Cut.isWhole_of_endsWell (endsWell_of_not_mem ?_)
      rw [List.take_succ_cons, List.mem_cons]
      rintro (rfl | h)
      · exact absurd black (by decide)
      · exact notMem_textTail (by decide) _ h

end Html

namespace Tokenizer

/-- No token ends inside of a line break. -/
theorem isWhole_cut (language : Language) (mode : Mode) (c : Char) (rest : Text) :
    (cut language mode c rest).IsWhole c rest := by
  unfold cut
  split
  · exact Cut.isWhole_of_more_eq_zero rfl (by decide)
  · exact Cut.isWhole_of_more_eq_zero rfl (by decide)
  · exact Cut.isWhole_of_more_eq_zero rfl (by decide)
  · exact Cut.isWhole_of_more_eq_zero rfl (by decide)
  · cases language with
    | csharp => exact CSharp.isWhole_cut
    | html => exact Html.isWhole_cut

end Tokenizer

end RazorLang
