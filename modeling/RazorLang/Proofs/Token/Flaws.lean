import RazorLang.Proofs.Token.Run

/-!
# What flaws mark

The report of a token that breaks off marks what the token starts with: a quote, what opens a verbatim string
or a comment, or nothing. Main statement: `Tokenizer.marks_of_next?` — the characters that are marked are
there, and none of them is a `\r`.
-/

namespace RazorLang

open Text

/-- The bytes that a flaw marks are characters at the start of a text, and not the start of a `\r\n`. -/
def Flaw.Marks (f : Flaw) (t : Text) : Prop :=
  ∃ u v, t = u ++ v ∧ size u = f.marked ∧ '\r' ∉ u

theorem Flaw.Marks.append {f : Flaw} {t : Text} (h : f.Marks t) (w : Text) : f.Marks (t ++ w) := by
  obtain ⟨u, v, rfl, hsize, hnot⟩ := h
  exact ⟨u, v ++ w, List.append_assoc .., hsize, hnot⟩

namespace Cut

/-- What a cut marks is what it cuts off the front of a text. -/
def IsMarked (k : Cut) (c : Char) (rest : Text) : Prop :=
  ∀ f, k.flaw = some f → f.Marks (c :: rest.take k.more)

variable {k : Cut} {c d : Char} {rest : Text} {kind : TokenKind} {f : Flaw} {n : Nat}

theorem isMarked_of_none (h : k.flaw = none) : k.IsMarked c rest := by
  intro f hf
  exact nomatch h.symm.trans hf

theorem isMarked_ofCount (closed : Bool) (hmarks : f.Marks (c :: rest.take (n - 1))) :
    (ofCount kind n (if closed then none else some f)).IsMarked c rest := by
  intro g hg
  cases closed with
  | true => exact nomatch hg
  | false =>
      obtain rfl : f = g := Option.some.inj hg
      exact hmarks

/-- One character is marked. -/
theorem marks_first (hf : f.marked = c.utf8Size) (hc : c ≠ '\r') (t : Text) : f.Marks (c :: t) := by
  refine ⟨[c], t, rfl, ?_, fun h => hc (List.mem_singleton.mp h).symm⟩
  rw [hf]
  rfl

/-- Two characters are marked. -/
theorem marks_both (hf : f.marked = c.utf8Size + d.utf8Size) (hc : c ≠ '\r') (hd : d ≠ '\r') (t : Text) :
    f.Marks (c :: d :: t) := by
  refine ⟨[c, d], t, rfl, hf.symm, ?_⟩
  intro h
  rcases List.mem_cons.mp h with h | h
  · exact hc h.symm
  · exact hd (List.mem_singleton.mp h).symm

end Cut

namespace CSharp

open Cut

variable {c d : Char} {rest : Text}

theorem isMarked_verbatim {lead : Nat} (hlead : 2 ≤ lead) (hc : c ≠ '\r') (hd : d ≠ '\r')
    (hsize : c.utf8Size = 1 ∧ d.utf8Size = 1) (t : Text) :
    (verbatim lead t).IsMarked c (d :: rest) := by
  rw [verbatim]
  cases verbatimTail (t.drop lead) with
  | mk n closed =>
      refine isMarked_ofCount closed ?_
      obtain ⟨m, hm⟩ : ∃ m, lead + n - 1 = m + 1 := ⟨lead + n - 2, by omega⟩
      rw [hm, List.take_succ_cons]
      refine marks_both ?_ hc hd _
      rw [hsize.1, hsize.2]
      rfl

theorem isMarked_quoted {quote : Char} {kind : TokenKind} {f : Flaw} {lead : Nat} (hf : f.marked = 1)
    (hc : c ≠ '\r') (hsize : c.utf8Size = 1) (t : Text) :
    (quoted quote kind f lead t).IsMarked c rest := by
  rw [quoted]
  cases quotedTail quote (t.drop lead) with
  | mk n closed => exact isMarked_ofCount closed (marks_first (hf.trans hsize.symm) hc _)

theorem isMarked_blockComment : (blockComment ('/' :: '*' :: rest)).IsMarked '/' ('*' :: rest) := by
  unfold blockComment
  split
  · exact isMarked_of_none rfl
  · exact isMarked_ofCount false (marks_both rfl (by decide) (by decide) _)

theorem isMarked_lexeme (t : Text) : (lexeme t).IsMarked c rest := by
  refine isMarked_of_none ?_
  unfold lexeme
  split <;> rfl

theorem isMarked_cut : (cut c rest).IsMarked c rest := by
  unfold cut
  dsimp only
  split
  · exact isMarked_of_none (flaw_lineBreak c rest)
  · split
    · exact isMarked_of_none rfl
    · split
      · exact isMarked_verbatim (Nat.le_refl 2) (by decide) (by decide) (by decide) _
      · exact isMarked_verbatim (by decide) (by decide) (by decide) (by decide) _
      · exact isMarked_of_none (flaw_transition rest)
      · exact isMarked_quoted rfl (by decide) (by decide) _
      · exact isMarked_quoted rfl (by decide) (by decide) _
      · exact isMarked_quoted rfl (by decide) (by decide) _
      · exact isMarked_verbatim (by decide) (by decide) (by decide) (by decide) _
      · exact isMarked_blockComment
      · exact isMarked_of_none rfl
      · exact isMarked_lexeme _

end CSharp

namespace Html

/-- No token of HTML breaks off. -/
theorem flaw_cut (c : Char) (rest : Text) : (cut c rest).flaw = none := by
  have hcut := isCut_cut c rest
  generalize cut c rest = k at hcut ⊢
  cases hcut with
  | lineBreak => exact Cut.flaw_lineBreak c rest
  | transition => exact Cut.flaw_transition rest
  | _ => rfl

end Html

namespace Tokenizer

variable {s s' : Tokenizer} {t : Token} {f : Flaw}

theorem isMarked_cut (language : Language) (mode : Mode) (c : Char) (rest : Text) :
    (cut language mode c rest).IsMarked c rest := by
  unfold cut
  split
  · exact Cut.isMarked_of_none rfl
  · exact Cut.isMarked_of_none rfl
  · exact Cut.isMarked_of_none rfl
  · exact Cut.isMarked_of_none rfl
  · split
    · exact CSharp.isMarked_cut
    · exact Cut.isMarked_of_none (Html.flaw_cut c rest)

/-- What the flaw of a token marks is at the start of the token. -/
theorem marks_of_next? (h : s.next? = some (t, s')) (hf : t.flaw = some f) : f.Marks t.content := by
  unfold next? at h
  split at h
  · -- Nothing is marked of a comment whose end is missing.
    have hbody : s.nextBody = (t, s') := Option.some.inj h
    unfold nextBody at hbody
    split at hbody
    · obtain ⟨rfl, -⟩ := Prod.mk.inj hbody
      exact nomatch hf
    · obtain ⟨rfl, -⟩ := Prod.mk.inj hbody
      obtain rfl : Flaw.razorComment = f := Option.some.inj hf
      exact ⟨[], _, rfl, rfl, List.not_mem_nil⟩
  · split at h
    · exact nomatch h
    · next c rest hrest =>
        obtain ⟨rfl, -⟩ := Prod.mk.inj (Option.some.inj h)
        exact isMarked_cut s.language s.mode c rest f hf

end Tokenizer

end RazorLang
