import RazorLang.Proofs.Token.Html

/-!
# Tokens of C#

Which characters decide the tokens of C# that stand between values: a word goes on up to the first character
that is not part of one (`CSharp.cut_word`), and white space and line breaks begin with a character of their sort
and with no other (`CSharp.isTrivia_cut`).
-/

namespace RazorLang

/-- A word, reserved or not: a text that starts as an identifier does and goes on as one. -/
structure Text.IsWord (w : Text) : Prop where
  starts : ∃ c ∈ w.head?, Lexeme.startsIdentifier c = true
  continues : ∀ c ∈ w, Lexeme.continuesIdentifier c = true

/-- A word that can name something: an identifier that is not reserved. -/
structure Text.IsName (w : Text) : Prop where
  starts : ∃ c ∈ w.head?, Lexeme.startsIdentifier c = true
  continues : ∀ c ∈ w, Lexeme.continuesIdentifier c = true
  free : Keyword.isReserved w = false

theorem Text.IsName.isWord {w : Text} (h : w.IsName) : w.IsWord :=
  ⟨h.starts, h.continues⟩

namespace Text

variable {c : Char}

/-- The characters of white space. -/
def spaces : List Char := List.map Char.ofNat [
  0x9, 0xA, 0xB, 0xC, 0xD, 0x20, 0x85, 0xA0, 0x1680, 0x2000, 0x2001, 0x2002, 0x2003, 0x2004, 0x2005, 0x2006, 0x2007,
  0x2008, 0x2009, 0x200A, 0x2028, 0x2029, 0x202F, 0x205F, 0x3000]

theorem mem_spaces (h : isSpace c = true) : c ∈ spaces := by
  rw [← Char.ofNat_toNat c]
  refine List.mem_map_of_mem ?_
  simp only [isSpace, Bool.or_eq_true, Bool.and_eq_true, beq_iff_eq, decide_eq_true_eq] at h
  simp only [List.mem_cons, List.not_mem_nil, or_false]
  omega

/-- No name starts with white space. -/
theorem isSpace_of_startsIdentifier (h : Lexeme.startsIdentifier c = true) : isSpace c = false := by
  have hspaces : spaces.any Lexeme.startsIdentifier = false := by decide +kernel
  rw [← Bool.not_eq_true]
  exact fun hspace => List.any_eq_false.mp hspaces c (mem_spaces hspace) h

theorem IsName.isSpace_head {w : Text} (h : w.IsName) (rest : Text) :
    ∀ x ∈ (w ++ rest).head?, isSpace x = false := by
  intro x hx
  obtain ⟨c, hc, hstarts⟩ := h.starts
  rw [List.head?_append, hc] at hx
  obtain rfl : c = x := Option.some.inj hx
  exact isSpace_of_startsIdentifier hstarts

end Text

namespace CSharp

variable {c : Char} {rest : Text}

theorem cut_lineBreak (h : Text.isLineBreak c = true) : cut c rest = Cut.lineBreak c rest := by
  unfold cut
  rw [if_pos h]

theorem cut_inlineSpace (h : Text.isInlineSpace c = true) : cut c rest = Cut.inlineSpace rest := by
  obtain ⟨hspace, hbreak⟩ := Bool.and_eq_true_iff.mp h
  unfold cut
  rw [if_neg (by simpa using hbreak), if_pos hspace]

theorem isTrivia_symbolKind (s : Symbol) : (symbolKind s).isTrivia = false := by
  cases s with
  | _ => rfl

theorem isTrivia_lexemeKind (kind : LexemeKind) (t : Text) : (lexemeKind kind t).isTrivia = false := by
  cases kind with
  | identifier =>
      unfold lexemeKind
      dsimp only
      split
      · rfl
      · rfl
  | symbol s => exact isTrivia_symbolKind s
  | _ => rfl

theorem isTrivia_lexeme (t : Text) : (lexeme t).kind.isTrivia = false := by
  unfold lexeme
  split
  · exact isTrivia_lexemeKind _ _
  · rfl

/-- Neither white space nor a line break begins with another character. -/
theorem isTrivia_cut (h : Text.isSpace c = false) : (cut c rest).kind.isTrivia = false := by
  have hbreak : Text.isLineBreak c = false := by
    rw [← Bool.not_eq_true]
    intro hbreak
    exact Bool.false_ne_true (h.symm.trans (Text.isSpace_of_isLineBreak hbreak))
  unfold cut
  rw [if_neg (by rw [hbreak]; decide), if_neg (by rw [h]; decide)]
  split
  · rfl
  · rfl
  · rcases Cut.kind_transition rest with hkind | hkind
    · rw [hkind]; rfl
    · rw [hkind]; rfl
  · rfl
  · rfl
  · rfl
  · rfl
  · unfold blockComment
    split <;> rfl
  · rfl
  · exact isTrivia_lexeme _

/-- White space within a line begins with a character of its sort. -/
theorem kind_cut_ne_whitespace (h : Text.isInlineSpace c = false) : (cut c rest).kind ≠ .whitespace := by
  intro hkind
  cases hbreak : Text.isLineBreak c with
  | true =>
      rw [cut_lineBreak hbreak, Cut.kind_lineBreak] at hkind
      exact nomatch hkind
  | false =>
      have hspace : Text.isSpace c = false := by
        rwa [Text.isInlineSpace, hbreak, Bool.not_false, Bool.and_true] at h
      have hother : (cut c rest).kind.isTrivia = false := isTrivia_cut hspace
      rw [hkind] at hother
      exact nomatch hother

/-- A word is one token, a keyword or an identifier. -/
theorem cut_word {t : Text} (hw : Text.IsWord (c :: t))
    (hrest : ∀ x ∈ rest.head?, Lexeme.continuesIdentifier x = false) :
    cut c (t ++ rest) = { kind := lexemeKind .identifier (c :: t), more := t.length } := by
  obtain ⟨⟨d, hd, hstarts⟩, hcontinues⟩ := hw
  obtain rfl : c = d := Option.some.inj hd
  have hne {d : Char} (hd : Lexeme.startsIdentifier d = false) : c ≠ d := by
    rintro rfl
    exact Bool.false_ne_true (hd.symm.trans hstarts)
  have hstop : rest.takeWhile Lexeme.continuesIdentifier = [] := by
    cases rest with
    | nil => rfl
    | cons x rest => exact List.takeWhile_cons_of_neg (by rw [hrest x rfl]; decide)
  have hcount : Lexeme.countWhile Lexeme.continuesIdentifier (c :: (t ++ rest)) = t.length + 1 := by
    rw [Lexeme.countWhile, ← List.cons_append, List.takeWhile_append_of_pos hcontinues, hstop, List.append_nil,
      List.length_cons]
  have hlexeme : lexeme (c :: (t ++ rest)) = { kind := lexemeKind .identifier (c :: t), more := t.length } := by
    rw [lexeme, Lexeme.lead?, if_pos hstarts, hcount]
    show Cut.ofCount (lexemeKind .identifier ((c :: (t ++ rest)).take (t.length + 1))) (t.length + 1) = _
    rw [List.take_succ_cons, List.take_left' rfl]
    rfl
  rw [← hlexeme]
  have hspace := Text.isSpace_of_startsIdentifier hstarts
  have hbreak : ¬ Text.isLineBreak c = true := fun h =>
    Bool.false_ne_true (hspace.symm.trans (Text.isSpace_of_isLineBreak h))
  unfold cut
  rw [if_neg hbreak, if_neg (by rw [hspace]; decide)]
  split
  all_goals first | rfl | exact absurd rfl (hne (by decide))

/-- A name is an identifier. -/
theorem cut_name {t : Text} (hw : Text.IsName (c :: t)) {x : Char} (hx : Lexeme.continuesIdentifier x = false) :
    cut c (t ++ x :: rest) = { kind := .identifier, more := t.length } := by
  rw [cut_word hw.isWord, lexemeKind, hw.free]
  · rfl
  · rintro y hy
    obtain rfl : x = y := Option.some.inj hy
    exact hx

end CSharp

end RazorLang
