import RazorLang.Proofs.Generation.Operations
import RazorLang.Proofs.Token.Literals

/-!
# String literals are read back

Generated code holds texts as string literals (`stringLiteral`). What writes them and what scans C# are made
independently, and they agree: no quote of the text closes the literal, and no backslash or line break of it cuts
the literal short (`CSharp.quotedTail_flatMap`), whatever stands behind it.

Main statement: `Tokenizer.next?_stringLiteral` — a string literal is one token of C#, nothing is reported about it,
and it stands for the text that it was made of.
-/

namespace RazorLang

open Text

/-! ## Scanning -/

/-- No line ends behind a backslash that escapes something. -/
theorem isLineBreak_of_escaped? {c d : Char} (h : escaped? d = some c) : isLineBreak d = false := by
  cases hd : isLineBreak d with
  | false => rfl
  | true =>
      rw [isLineBreak, Bool.or_eq_true, beq_iff_eq, beq_iff_eq] at hd
      rcases hd with rfl | rfl
      · simp [escaped?] at h
      · simp [escaped?] at h

namespace CSharp

variable {quote c d : Char} {t : Text}

theorem quotedTail_close (h : quote ≠ '\\') (t : Text) : quotedTail quote (quote :: t) = (1, true) := by
  cases t with
  | nil =>
      rw [quotedTail, if_pos (beq_self_eq_true quote)]
  | cons d t =>
      rw [quotedTail, if_neg (by simpa using h), if_pos (beq_self_eq_true quote)]

/-- A character that stands for itself is passed. -/
theorem quotedTail_cons (hescape : c ≠ '\\') (hquote : c ≠ quote) (hbreak : isLineBreak c = false) (ht : t ≠ []) :
    quotedTail quote (c :: t) = ((quotedTail quote t).1 + 1, (quotedTail quote t).2) := by
  cases t with
  | nil => exact absurd rfl ht
  | cons d t =>
      rw [quotedTail, if_neg (by simpa using hescape), if_neg (by simpa using hquote), if_neg (by simp [hbreak])]

/-- A backslash is passed together with what it escapes. -/
theorem quotedTail_escape (hbreak : isLineBreak d = false) :
    quotedTail quote ('\\' :: d :: t) = ((quotedTail quote t).1 + 2, (quotedTail quote t).2) := by
  rw [quotedTail, if_pos (beq_self_eq_true '\\'), if_neg (by simp [hbreak])]

/-- The body of a string literal is passed as a whole, and the quote behind it closes the literal. -/
theorem quotedTail_flatMap (t rest : Text) :
    quotedTail '"' (t.flatMap literalChar ++ '"' :: rest) = ((t.flatMap literalChar).length + 1, true) := by
  induction t with
  | nil => exact quotedTail_close (by decide) rest
  | cons c t ih =>
      rw [List.flatMap_cons, List.append_assoc, List.length_append]
      rcases literalChar_cases c with ⟨hself, hquote, hslash, hfeed, hreturn⟩ | ⟨d, hchar, hd⟩
      · have hbreak : isLineBreak c = false := by
          simp [isLineBreak, hfeed, hreturn]
        have hmore : t.flatMap literalChar ++ '"' :: rest ≠ [] := by
          intro hnil
          exact List.cons_ne_nil _ _ (List.append_eq_nil_iff.mp hnil).2
        rw [hself]
        show quotedTail '"' (c :: (t.flatMap literalChar ++ '"' :: rest)) = _
        rw [quotedTail_cons hslash hquote hbreak hmore, ih]
        show (_ + 1 + 1, true) = (1 + _ + 1, true)
        rw [Nat.add_comm 1]
      · rw [hchar]
        show quotedTail '"' ('\\' :: d :: (t.flatMap literalChar ++ '"' :: rest)) = _
        rw [quotedTail_escape (isLineBreak_of_escaped? hd), ih]
        show (_ + 1 + 2, true) = (2 + _ + 1, true)
        rw [Nat.add_comm 2]

/-- A literal in quotes is cut where the scan of what follows its opening ends. -/
theorem quoted_eq {kind : TokenKind} {flaw : Flaw} {lead n : Nat} {closed : Bool}
    (h : quotedTail quote (t.drop lead) = (n, closed)) :
    quoted quote kind flaw lead t = Cut.ofCount kind (lead + n) (if closed then none else some flaw) := by
  unfold quoted
  rw [h]

/-- C# that begins with a string literal is cut behind it. -/
theorem cut_stringLiteral (t rest : Text) :
    cut '"' (t.flatMap literalChar ++ '"' :: rest) = Cut.ofCount .string (stringLiteral t).length := by
  have hlength : (stringLiteral t).length = 1 + ((t.flatMap literalChar).length + 1) := by
    show (['"'] ++ t.flatMap literalChar ++ ['"']).length = _
    rw [List.append_assoc, List.length_append, List.length_append]
    rfl
  show quoted '"' .string .string 1 ('"' :: (t.flatMap literalChar ++ '"' :: rest)) = _
  rw [quoted_eq (quotedTail_flatMap t rest), hlength]
  rfl

end CSharp

/-! ## Reading back -/

/-- A literal is its body between two quotes. -/
theorem stringLiteral_eq (t : Text) : stringLiteral t = '"' :: (t.flatMap literalChar ++ ['"']) := rfl

/-- The text can be told from its literal. -/
theorem stringLiteral_injective : Function.Injective stringLiteral := by
  intro t u h
  have hbody : t.flatMap literalChar ++ ['"'] = u.flatMap literalChar ++ ['"'] := (List.cons.inj h).2
  have hread : some (t, ([] : Text)) = some (u, []) := by
    calc some (t, [])
        = readLiteral? (t.flatMap literalChar ++ ['"']) := (readLiteral?_flatMap t []).symm
      _ = readLiteral? (u.flatMap literalChar ++ ['"']) := by rw [hbody]
      _ = some (u, []) := readLiteral?_flatMap u []
  exact congrArg Prod.fst (Option.some.inj hread)

namespace Tokenizer

/-- A tokenizer of C# that is started at a string literal gives out the literal as one string, whatever follows it,
    reports nothing about it and goes on right behind it. Undoing the escapes between the quotes gives the text
    that the literal was made of, so that no other text has the same literal. -/
theorem next?_stringLiteral :
    (∀ (path : Option Text) (place : Location) (t rest : Text), ∃ u s',
      (start .csharp path place (stringLiteral t ++ rest)).next? = some (u, s') ∧
      u.kind = .string ∧ u.content = stringLiteral t ∧ u.diagnostics = [] ∧
      s' = start .csharp path (place.advance (stringLiteral t)) rest) ∧
    (∀ t, ∃ body, stringLiteral t = '"' :: (body ++ ['"']) ∧ readLiteral? (body ++ ['"']) = some (t, [])) ∧
    Function.Injective stringLiteral := by
  refine ⟨?_, ?_, stringLiteral_injective⟩
  · intro path place t rest
    have htext : stringLiteral t ++ rest = '"' :: (t.flatMap literalChar ++ '"' :: rest) := by
      rw [stringLiteral_eq, List.cons_append, List.append_assoc]
      rfl
    have hpos : 0 < (stringLiteral t).length := List.length_pos_iff.mpr (List.cons_ne_nil _ _)
    have hnext := next?_csharp (s := start .csharp path place (stringLiteral t ++ rest)) rfl rfl htext
      (CSharp.cut_stringLiteral t rest)
    have hcontent : ∀ flaw : Option Flaw, '"' :: (t.flatMap literalChar ++ '"' :: rest).take
        (Cut.ofCount .string (stringLiteral t).length flaw).more = stringLiteral t := by
      intro flaw
      rw [Cut.take_ofCount hpos, ← htext, List.take_left]
    have hrest : (t.flatMap literalChar ++ '"' :: rest).drop (Cut.ofCount .string (stringLiteral t).length).more =
        rest := by
      show ('"' :: (t.flatMap literalChar ++ '"' :: rest)).drop (stringLiteral t).length = rest
      rw [← htext, List.drop_left]
    rw [hcontent, hrest] at hnext
    exact ⟨_, _, hnext, rfl, rfl, rfl, rfl⟩
  · intro t
    exact ⟨t.flatMap literalChar, stringLiteral_eq t, readLiteral?_flatMap t []⟩

/-- Text that looks like an escape, and quotes behind a backslash. -/
example : stringLiteral "\\n\\\"" = "\"\\\\n\\\\\\\"\"".toList := by decide

end Tokenizer

end RazorLang
