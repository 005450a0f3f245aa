import RazorLang.Proofs.Grammar.PlainMarkup
import RazorLang.Proofs.Token.CSharp

/-!
# Names and blanks in code

Code that is one name or white space is read as it is, and nothing is reported (`bump_name`, `takeTrivia_blank`).
What is left of a line is looked at before it is taken: the white space of it (`take_blank`), and then whether it
ends there (`lineBreak_cases`).
-/

namespace RazorLang

/-- What ends a line where a text starts, if anything does: a line break, or the end of the text. -/
def Text.lineBreak? : Text → Option Text
  | [] => some []
  | '\r' :: '\n' :: _ => some ['\r', '\n']
  | x :: _ => if Text.isLineBreak x then some [x] else none

/-- What is left of a line if that is white space, with the line break; nothing, if there is anything else on the
    line. -/
def Text.blankLine (t : Text) : Text :=
  match lineBreak? (t.dropWhile isInlineSpace) with
  | some ending => t.takeWhile isInlineSpace ++ ending
  | none => []

namespace Grammar

open Reader

variable {r : Reader}

/-! ## Names and blanks -/

/-- White space of one blank is taken as it is. -/
theorem takeTrivia_blank (hr : ReadsIn .csharp r) {rest : Text} (hrest : r.tokenizer.rest = ' ' :: rest)
    (hnext : ∀ x ∈ rest.head?, Text.isSpace x = false) (acrossLines : Bool) :
    Gives (takeTrivia acrossLines) r fun ts r' => ∃ t, ts = [t] ∧ t.content = [' '] ∧ Quiet r [t] r' ∧
      ReadsIn .csharp r' ∧ r'.tokenizer.rest = rest := by
  have hblank : CSharp.cut ' ' rest = { kind := .whitespace } := by
    rw [CSharp.cut_inlineSpace (by decide), Cut.inlineSpace]
    cases rest with
    | nil => rfl
    | cons x rest =>
        rw [List.takeWhile_cons_of_neg]
        · rfl
        · rw [Text.isInlineSpace, hnext x rfl]
          exact Bool.false_ne_true
  obtain ⟨⟨t, ht, hwhite, -⟩, htaken⟩ := bump_data hr hrest hblank
  -- one turn takes the blank, and the next one stops before what follows it
  refine gives_loop_again ?_
  rw [gives_bind, gives_kind?, ht, Option.map_some, hwhite]
  dsimp only
  rw [if_pos (by rfl), gives_bind]
  refine htaken.mono ?_
  rintro _ r' ⟨t, rfl, hcontent, hquiet, hr', hrest'⟩
  rw [gives_pure]
  refine ⟨[t], rfl, ?_, gives_loop_done ?_⟩
  · rw [hr.left, hr'.left, hrest, hrest']
    exact Nat.lt_add_of_pos_right (by decide)
  · rw [gives_bind, gives_kind?]
    have hdone : Gives (pure (Turn.done [t])) r' fun u r'' => ∃ ts, u = .done ts ∧ ∃ t, ts = [t] ∧
        t.content = [' '] ∧ Quiet r [t] r'' ∧ ReadsIn .csharp r'' ∧ r''.tokenizer.rest = rest :=
      ⟨[t], rfl, t, rfl, hcontent, hquiet, hr', hrest'⟩
    cases rest with
    | nil =>
        rw [peek?_of_end hr' hrest']
        exact hdone
    | cons x rest =>
        rw [peek_kind hr' hrest']
        have hkind : (Tokenizer.cut .csharp .data x rest).kind.isTrivia = false := CSharp.isTrivia_cut (hnext x rfl)
        generalize (Tokenizer.cut .csharp .data x rest).kind = kind at hkind
        dsimp only
        rw [if_neg]
        · exact hdone
        · rw [Bool.or_eq_true, Bool.and_eq_true, beq_iff_eq, beq_iff_eq]
          rintro (rfl | ⟨-, rfl⟩)
          · exact absurd hkind (by decide)
          · exact absurd hkind (by decide)

/-- A name. -/
theorem bump_name (hr : ReadsIn .csharp r) {name rest : Text} (hname : name.IsName) {x : Char}
    (hrest : r.tokenizer.rest = name ++ x :: rest) (hx : Lexeme.continuesIdentifier x = false) :
    (∃ t, r.tokenizer.peek? = some t ∧ t.kind = .identifier ∧ t.content = name) ∧
      Gives bump r fun ts r' => ∃ t, ts = [t] ∧ t.content = name ∧ Quiet r [t] r' ∧ ReadsIn .csharp r' ∧
        r'.tokenizer.rest = x :: rest := by
  cases name with
  | nil =>
      obtain ⟨c, hc, -⟩ := hname.starts
      exact nomatch hc
  | cons c t =>
      rw [List.cons_append] at hrest
      have htoken := bump_data hr hrest (CSharp.cut_name hname hx)
      rwa [List.take_left' rfl, List.drop_left' rfl] at htoken

/-! ## The end of a line -/

theorem peekNth?_take (r : Reader) (n k : Nat) :
    (take n r).2.tokenizer.peekNth? k = r.tokenizer.peekNth? (n + k) := by
  induction n generalizing r with
  | zero => rw [Nat.zero_add]; rfl
  | succ n ih =>
      show (take n (bump r).2).2.tokenizer.peekNth? k = _
      rw [ih, peekNth?_bump, Nat.add_right_comm]

/-- The last of some tokens is taken behind the others. -/
theorem take_concat (n : Nat) (r : Reader) :
    take (n + 1) r = ((take n r).1 ++ (bump (take n r).2).1, (bump (take n r).2).2) := by
  induction n generalizing r with
  | zero =>
      show ((bump r).1 ++ [], (bump r).2) = ([] ++ (bump r).1, (bump r).2)
      rw [List.append_nil, List.nil_append]
  | succ n ih =>
      show ((bump r).1 ++ (take (n + 1) (bump r).2).1, (take (n + 1) (bump r).2).2) = _
      rw [ih, ← List.append_assoc]
      rfl

theorem gives_take_succ {n : Nat} {P : List Token → Reader → Prop}
    (h : Gives bump (take n r).2 fun us r' => P ((take n r).1 ++ us) r') : Gives (take (n + 1)) r P := by
  unfold Gives
  rw [take_concat]
  exact h

theorem countRun_blank (hr : ReadsIn .csharp r) {x : Char} {rest : Text} (hrest : r.tokenizer.rest = x :: rest)
    (hx : Text.isInlineSpace x = true) :
    countRun isBlank r.tokenizer = countRun isBlank (bump r).2.tokenizer + 1 := by
  have hcut : Tokenizer.cut r.tokenizer.language .data x rest = Cut.inlineSpace rest := by
    rw [hr.language]
    exact CSharp.cut_inlineSpace hx
  have hnext := Tokenizer.next?_of_data hr.mode hrest hcut
  rw [countRun, bump_eq hnext]
  split
  · next hnone => exact absurd (hnext.symm.trans hnone) (Option.some_ne_none _)
  · next t s hsome =>
      obtain ⟨rfl, rfl⟩ := Prod.mk.inj (Option.some.inj (hnext.symm.trans hsome))
      rw [if_pos (by rfl)]

theorem countRun_other (hr : ReadsIn .csharp r) (h : ∀ x ∈ r.tokenizer.rest.head?, Text.isInlineSpace x = false) :
    countRun isBlank r.tokenizer = 0 := by
  rw [countRun]
  split
  · rfl
  · next t s hnext =>
      rw [if_neg]
      have hpeek : r.tokenizer.peek?.map (·.kind) = some t.kind := by
        rw [Tokenizer.peek?, Tokenizer.peekNth?, hnext]
        rfl
      cases hrest : r.tokenizer.rest with
      | nil =>
          rw [peek?_of_end hr hrest] at hpeek
          exact absurd hpeek.symm (Option.some_ne_none _)
      | cons x rest =>
          rw [peek_kind hr hrest] at hpeek
          rw [← Option.some.inj hpeek, isBlank, beq_iff_eq]
          exact CSharp.kind_cut_ne_whitespace (h x (by rw [hrest]; rfl))

theorem head?_dropWhile (t : Text) : ∀ x ∈ (t.dropWhile Text.isInlineSpace).head?, Text.isInlineSpace x = false := by
  intro x hx
  have hnot := List.head?_dropWhile_not Text.isInlineSpace t
  rw [hx] at hnot
  exact hnot

/-- The white space in front of a line is taken, and the line break or whatever else stands behind it is next. -/
theorem take_blank (hr : ReadsIn .csharp r) :
    Gives (take (countRun isBlank r.tokenizer)) r fun ts r' =>
      contentOf ts = r.tokenizer.rest.takeWhile Text.isInlineSpace ∧ Quiet r ts r' ∧ ReadsIn .csharp r' ∧
        r'.tokenizer.rest = r.tokenizer.rest.dropWhile Text.isInlineSpace := by
  cases hrest : r.tokenizer.rest with
  | nil =>
      rw [countRun_other hr (by rw [hrest]; exact nofun)]
      exact ⟨rfl, Quiet.refl r, hr, hrest⟩
  | cons x rest =>
      cases hx : Text.isInlineSpace x with
      | false =>
          rw [countRun_other hr (by rw [hrest]; rintro _ ⟨⟩; exact hx), List.takeWhile_cons_of_neg (by rw [hx]; decide),
            List.dropWhile_cons_of_neg (by rw [hx]; decide)]
          exact ⟨rfl, Quiet.refl r, hr, hrest⟩
      | true =>
          have htake : rest.take (rest.takeWhile Text.isInlineSpace).length = rest.takeWhile Text.isInlineSpace :=
            (List.prefix_iff_eq_take.mp (List.takeWhile_prefix _)).symm
          have hdrop : rest.drop (rest.takeWhile Text.isInlineSpace).length = rest.dropWhile Text.isInlineSpace := by
            have hsplit := congrArg (List.drop (rest.takeWhile Text.isInlineSpace).length)
              (List.takeWhile_append_dropWhile (p := Text.isInlineSpace) (l := rest))
            rwa [List.drop_left, eq_comm] at hsplit
          obtain ⟨-, htaken⟩ := bump_data hr hrest (CSharp.cut_inlineSpace hx)
          rw [htake, hdrop] at htaken
          have hr' : ReadsIn .csharp (bump r).2 := by
            obtain ⟨t, -, -, -, hr', -⟩ := htaken
            exact hr'
          have hrest' : (bump r).2.tokenizer.rest = rest.dropWhile Text.isInlineSpace := by
            obtain ⟨t, -, -, -, -, hrest'⟩ := htaken
            exact hrest'
          rw [List.takeWhile_cons_of_pos hx, List.dropWhile_cons_of_pos hx, countRun_blank hr hrest hx,
            countRun_other hr' (hrest' ▸ head?_dropWhile rest)]
          refine gives_take_succ (n := 0) (htaken.mono ?_)
          rintro _ r' ⟨t, rfl, hcontent, hquiet, hr', hrest'⟩
          refine ⟨?_, hquiet, hr', hrest'⟩
          show contentOf [t] = _
          rw [contentOf_cons, contentOf_nil, List.append_nil, hcontent]

theorem cut_lineBreak? {x : Char} (hx : Text.isLineBreak x = true) (rest : Text) :
    ∃ more, Cut.lineBreak x rest = { kind := .newLine, more } ∧
      Text.lineBreak? (x :: rest) = some (x :: rest.take more) := by
  unfold Cut.lineBreak
  split
  · exact ⟨1, rfl, rfl⟩
  · next hpair =>
      refine ⟨0, rfl, ?_⟩
      unfold Text.lineBreak?
      split
      · next heq => exact nomatch heq
      · next heq =>
          obtain ⟨rfl, rfl⟩ := List.cons.inj heq
          exact (hpair _ rfl rfl).elim
      · next heq =>
          obtain ⟨rfl, rfl⟩ := List.cons.inj heq
          rw [if_pos hx]
          rfl

/-- What is next where no white space is: a line break, something else, or nothing. -/
theorem lineBreak_cases (hr : ReadsIn .csharp r) (h : ∀ x ∈ r.tokenizer.rest.head?, Text.isInlineSpace x = false) :
    (r.tokenizer.peek?.map (·.kind) = none ∧ Text.lineBreak? r.tokenizer.rest = some []) ∨
      (r.tokenizer.peek?.map (·.kind) = some .newLine ∧ Gives bump r fun ts r' =>
        Text.lineBreak? r.tokenizer.rest = some (contentOf ts) ∧ Quiet r ts r' ∧ ReadsIn .csharp r') ∨
      (∃ kind, r.tokenizer.peek?.map (·.kind) = some kind ∧ kind ≠ .newLine) ∧
        Text.lineBreak? r.tokenizer.rest = none := by
  cases hrest : r.tokenizer.rest with
  | nil => exact Or.inl ⟨by rw [peek?_of_end hr hrest]; rfl, rfl⟩
  | cons x rest =>
      cases hx : Text.isLineBreak x with
      | true =>
          obtain ⟨more, hcut, hbreak⟩ := cut_lineBreak? hx rest
          obtain ⟨⟨t, ht, hkind, -⟩, htaken⟩ := bump_data hr hrest ((CSharp.cut_lineBreak hx).trans hcut)
          refine Or.inr (Or.inl ⟨by rw [ht, ← hkind]; rfl, htaken.mono ?_⟩)
          rintro _ r' ⟨t, rfl, hcontent, hquiet, hr', -⟩
          refine ⟨?_, hquiet, hr'⟩
          rw [hbreak, contentOf_cons, contentOf_nil, List.append_nil, hcontent]
      | false =>
          have hspace : Text.isSpace x = false := by
            have hinline := h x (by rw [hrest]; rfl)
            rwa [Text.isInlineSpace, hx, Bool.not_false, Bool.and_true] at hinline
          refine Or.inr (Or.inr ⟨⟨_, peek_kind hr hrest, fun heq => ?_⟩, ?_⟩)
          · have hother : (Tokenizer.cut .csharp .data x rest).kind.isTrivia = false := CSharp.isTrivia_cut hspace
            rw [heq] at hother
            exact absurd hother (by decide)
          · unfold Text.lineBreak?
            split
            · next heq => exact absurd heq (List.cons_ne_nil _ _)
            · next heq =>
                obtain ⟨rfl, -⟩ := List.cons.inj heq
                exact absurd hx (by decide)
            · next heq =>
                obtain ⟨rfl, -⟩ := List.cons.inj heq
                rw [if_neg (by rw [hx]; decide)]

end Grammar

end RazorLang
