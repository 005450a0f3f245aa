import RazorLang.Proofs.Token.Html

/-!
# Where literals and comments end

A literal or a comment of C# is opened by characters that nothing else in C# begins with (`Enclosure`), and each
sort of them says by itself where it is closed: a quote that a backslash does not escape, a quote that is not one
of two, or `*/` (`Enclosure.ClosesAt`). Quoted literals are closed on their line or not at all, the others
anywhere in the text (`Enclosure.reach`).

The scanners skip what cannot be the end, one or two characters at a time, so that what they find in the rest is
shifted by as many (`Finds.shift`). Main statement: `Tokenizer.literals_and_comments` — from wherever a token of C#
starts, the scanners find the first end, or report once that there is none.
-/

namespace RazorLang

open Text

/-! ## First ends -/

/-- The number of characters at the end of a text that are a given one. -/
def Text.trailing (c : Char) (t : Text) : Nat := (t.reverse.takeWhile (· == c)).length

/-- The first number with a property. -/
def IsFirst (P : Nat → Prop) (n : Nat) : Prop := P n ∧ ∀ m < n, ¬ P m

theorem IsFirst.zero {P : Nat → Prop} (h : P 0) : IsFirst P 0 :=
  ⟨h, fun m hm => absurd hm (Nat.not_lt_zero m)⟩

/-- A scan comes to the first number with a property and goes `width` further, or fails and comes to the end if
    there is none. -/
def Finds (P : Nat → Prop) (width last : Nat) (found : Nat × Bool) : Prop :=
  (∃ n, IsFirst P n ∧ found = (n + width, true)) ∨ ((∀ n, ¬ P n) ∧ found = (last, false))

namespace Finds

variable {P Q : Nat → Prop} {width last k m : Nat} {closed : Bool}

/-- What is closed at once. -/
theorem first (h : P 0) : Finds P width last (width, true) :=
  Or.inl ⟨0, IsFirst.zero h, by rw [Nat.zero_add]⟩

/-- What is not closed at all. -/
theorem none (h : ∀ n, ¬ P n) : Finds P width last (last, false) := Or.inr ⟨h, rfl⟩

/-- What is found behind characters that close nothing. -/
theorem shift (h : Finds P width last (k, closed)) (hbefore : ∀ n < m, ¬ Q n) (hbehind : ∀ n, Q (n + m) ↔ P n) :
    Finds Q width (last + m) (k + m, closed) := by
  -- what has the one property beyond the characters has the other behind them
  have hback (n : Nat) (hn : Q n) : ∃ i, n = i + m ∧ P i := by
    have hle : m ≤ n := Nat.not_lt.mp fun hlt => hbefore n hlt hn
    refine ⟨n - m, (Nat.sub_add_cancel hle).symm, (hbehind _).mp ?_⟩
    rwa [Nat.sub_add_cancel hle]
  rcases h with ⟨n, ⟨hn, hfirst⟩, hfound⟩ | ⟨hnone, hfound⟩
  · obtain ⟨rfl, rfl⟩ := Prod.mk.inj hfound
    refine Or.inl ⟨n + m, ⟨(hbehind n).mpr hn, fun i hi hq => ?_⟩, by rw [Nat.add_right_comm]⟩
    obtain ⟨j, rfl, hj⟩ := hback i hq
    exact hfirst j (by omega) hj
  · obtain ⟨rfl, rfl⟩ := Prod.mk.inj hfound
    refine Or.inr ⟨fun n hn => ?_, rfl⟩
    obtain ⟨i, -, hi⟩ := hback n hn
    exact hnone i hi

end Finds

namespace Text

variable {c d : Char} {t part : Text} {n : Nat}

/-- Another character at the front does not count. -/
theorem trailing_cons (h : d ≠ c) (t : Text) : trailing c (d :: t) = trailing c t := by
  rw [trailing, trailing, List.reverse_cons, List.takeWhile_append]
  split
  · next hall =>
      simp [h, hall]
  · rfl

/-- Two characters at the front, of which the first is the one that is counted, count both or not at all. -/
theorem trailing_pair (c d : Char) (t : Text) : trailing c (c :: d :: t) % 2 = trailing c t % 2 := by
  by_cases hd : d = c
  · subst hd
    rw [trailing, trailing, List.reverse_cons, List.reverse_cons, List.append_assoc, List.takeWhile_append]
    split
    · next hall => simp [hall]
    · rfl
  · rw [trailing, trailing, List.reverse_cons, List.reverse_cons, List.append_assoc, List.takeWhile_append]
    split
    · next hall => simp [hd, hall]
    · rfl

/-- A part of a text begins behind some of its characters. -/
def OccursAt (part t : Text) (n : Nat) : Prop := part <+: t.drop n

/-- The search for a part of a text finds the first place where it begins. -/
theorem isFirst_of_indexOf? (h : indexOf? part t = some n) : IsFirst (OccursAt part t) n := by
  induction t generalizing n with
  | nil =>
      rw [indexOf?] at h
      split at h
      · next hempty =>
          obtain rfl := Option.some.inj h
          rw [List.isEmpty_iff.mp hempty]
          exact IsFirst.zero List.nil_prefix
      · cases h
  | cons c t ih =>
      rw [indexOf?] at h
      split at h
      · next hprefix =>
          obtain rfl := Option.some.inj h
          exact IsFirst.zero (List.isPrefixOf_iff_prefix.mp hprefix)
      · next hprefix =>
          obtain ⟨m, hm, rfl⟩ := Option.map_eq_some_iff.mp h
          obtain ⟨hoccurs, hfirst⟩ := ih hm
          refine ⟨hoccurs, fun i hi hat => ?_⟩
          cases i with
          | zero => exact hprefix (List.isPrefixOf_iff_prefix.mpr hat)
          | succ i => exact hfirst i (Nat.lt_of_succ_lt_succ hi) hat

/-- The search for a part of a text fails where it begins nowhere. -/
theorem not_occursAt_of_indexOf? (h : indexOf? part t = none) (n : Nat) : ¬ OccursAt part t n := by
  induction t generalizing n with
  | nil =>
      rw [indexOf?] at h
      split at h
      · cases h
      · next hempty =>
          intro hat
          rw [OccursAt, List.drop_nil] at hat
          exact hempty (List.isEmpty_iff.mpr (List.prefix_nil.mp hat))
  | cons c t ih =>
      rw [indexOf?] at h
      split at h
      · cases h
      · next hprefix =>
          intro hat
          cases n with
          | zero => exact hprefix (List.isPrefixOf_iff_prefix.mpr hat)
          | succ n => exact ih (Option.map_eq_none_iff.mp h) n hat

/-- A quote that is not escaped: the backslashes right before it escape one another. -/
def ClosesQuoted (quote : Char) (t : Text) (n : Nat) : Prop :=
  t[n]? = some quote ∧ trailing '\\' (t.take n) % 2 = 0

/-- A quote that is not one of two: those right before it come in pairs, and no other one follows. -/
def ClosesVerbatim (t : Text) (n : Nat) : Prop :=
  t[n]? = some '"' ∧ trailing '"' (t.take n) % 2 = 0 ∧ t[n + 1]? ≠ some '"'

/-- What is left of the line. -/
def lineAhead (t : Text) : Text := t.takeWhile (!isLineBreak ·)

theorem lineAhead_cons (h : isLineBreak c = false) (t : Text) : lineAhead (c :: t) = c :: lineAhead t :=
  List.takeWhile_cons_of_pos (by rw [h]; rfl)

theorem lineAhead_break (h : isLineBreak c = true) (t : Text) : lineAhead (c :: t) = [] :=
  List.takeWhile_cons_of_neg (by rw [h]; decide)

section ClosesQuoted

variable {quote : Char}

theorem closesQuoted_zero : ClosesQuoted quote (quote :: t) 0 := ⟨rfl, rfl⟩

theorem not_closesQuoted_nil (n : Nat) : ¬ ClosesQuoted quote [] n := fun h => nomatch h.1

theorem not_closesQuoted_zero (h : c ≠ quote) : ¬ ClosesQuoted quote (c :: t) 0 :=
  fun hcloses => h (Option.some.inj hcloses.1)

theorem closesQuoted_succ (h : c ≠ '\\') : ClosesQuoted quote (c :: t) (n + 1) ↔ ClosesQuoted quote t n := by
  rw [ClosesQuoted, ClosesQuoted, List.take_succ_cons, trailing_cons h]
  rfl

theorem not_closesQuoted_single (h : c ≠ quote) (n : Nat) : ¬ ClosesQuoted quote [c] n := by
  intro hcloses
  cases n with
  | zero => exact not_closesQuoted_zero h hcloses
  | succ n => exact nomatch hcloses.1

/-- A backslash escapes the character behind it. -/
theorem not_closesQuoted_escaped (hquote : quote ≠ '\\') : ∀ n < 2, ¬ ClosesQuoted quote ('\\' :: d :: t) n := by
  intro n hn hcloses
  match n with
  | 0 => exact not_closesQuoted_zero hquote.symm hcloses
  | 1 => exact nomatch hcloses.2

theorem closesQuoted_escape : ClosesQuoted quote ('\\' :: d :: t) (n + 2) ↔ ClosesQuoted quote t n := by
  rw [ClosesQuoted, ClosesQuoted, List.take_succ_cons, List.take_succ_cons, trailing_pair]
  rfl

end ClosesQuoted

theorem closesVerbatim_zero (h : t[0]? ≠ some '"') : ClosesVerbatim ('"' :: t) 0 := ⟨rfl, rfl, h⟩

theorem not_closesVerbatim_zero (h : c ≠ '"') : ¬ ClosesVerbatim (c :: t) 0 :=
  fun hcloses => h (Option.some.inj hcloses.1)

theorem closesVerbatim_succ (h : c ≠ '"') : ClosesVerbatim (c :: t) (n + 1) ↔ ClosesVerbatim t n := by
  rw [ClosesVerbatim, ClosesVerbatim, List.take_succ_cons, trailing_cons h]
  rfl

/-- Neither of two quotes closes a string. -/
theorem not_closesVerbatim_doubled : ∀ n < 2, ¬ ClosesVerbatim ('"' :: '"' :: t) n := by
  intro n hn hcloses
  match n with
  | 0 => exact hcloses.2.2 rfl
  | 1 => exact nomatch hcloses.2.1

theorem closesVerbatim_doubled : ClosesVerbatim ('"' :: '"' :: t) (n + 2) ↔ ClosesVerbatim t n := by
  rw [ClosesVerbatim, ClosesVerbatim, List.take_succ_cons, List.take_succ_cons, trailing_pair]
  rfl

end Text

namespace CSharp

/-- A quoted literal ends with the first quote of its line that is not escaped. -/
theorem quotedTail_finds {quote : Char} (hquote : quote ≠ '\\') (hbreak : isLineBreak quote = false) (t : Text) :
    Finds (ClosesQuoted quote (lineAhead t)) 1 (lineAhead t).length (quotedTail quote t) := by
  have hfirst (t : Text) :
      Finds (ClosesQuoted quote (lineAhead (quote :: t))) 1 (lineAhead (quote :: t)).length (1, true) := by
    rw [lineAhead_cons hbreak]
    exact Finds.first closesQuoted_zero
  have hempty {c : Char} (hc : isLineBreak c = true) (t : Text) :
      Finds (ClosesQuoted quote (lineAhead (c :: t))) 1 (lineAhead (c :: t)).length (0, false) := by
    rw [lineAhead_break hc]
    exact Finds.none not_closesQuoted_nil
  -- the cases are those of the scanner: at a quote, at the end of the line, at an escape, and at any other
  -- character
  fun_induction quotedTail quote t with
  | case1 => exact Finds.none not_closesQuoted_nil
  | case2 c hc => exact beq_iff_eq.mp hc ▸ hfirst []
  | case3 c _ hend => exact hempty hend []
  | case4 c hc hend =>
      rw [lineAhead_cons (Bool.eq_false_iff.mpr hend)]
      exact Finds.none (not_closesQuoted_single fun heq => hc (beq_iff_eq.mpr heq))
  | case5 c d t hc hend =>
      obtain rfl := beq_iff_eq.mp hc
      rw [lineAhead_cons rfl, lineAhead_break hend]
      exact Finds.none (not_closesQuoted_single hquote.symm)
  | case6 c d t hc hend n closed hn ih =>
      obtain rfl := beq_iff_eq.mp hc
      rw [lineAhead_cons rfl, lineAhead_cons (Bool.eq_false_iff.mpr hend)]
      rw [hn] at ih
      exact ih.shift (not_closesQuoted_escaped hquote) fun _ => closesQuoted_escape
  | case7 c d t _ hc => exact beq_iff_eq.mp hc ▸ hfirst (d :: t)
  | case8 c d t _ _ hend => exact hempty hend (d :: t)
  | case9 c d t hescape hc hend n closed hn ih =>
      have hother : c ≠ quote := fun heq => hc (beq_iff_eq.mpr heq)
      rw [lineAhead_cons (Bool.eq_false_iff.mpr hend)]
      rw [hn] at ih
      refine ih.shift (fun i hi => ?_) fun _ => closesQuoted_succ fun heq => hescape (beq_iff_eq.mpr heq)
      obtain rfl : i = 0 := Nat.lt_one_iff.mp hi
      exact not_closesQuoted_zero hother

/-- A verbatim string ends with the first quote that is not one of two. -/
theorem verbatimTail_finds (t : Text) : Finds (ClosesVerbatim t) 1 t.length (verbatimTail t) := by
  fun_induction verbatimTail t with
  | case1 => exact Finds.none fun n h => Option.some_ne_none _ (h.1.symm.trans List.getElem?_nil)
  | case2 t n closed hn ih =>
      rw [hn] at ih
      exact ih.shift not_closesVerbatim_doubled fun _ => closesVerbatim_doubled
  | case3 t hsingle =>
      refine Finds.first (closesVerbatim_zero fun hquote => ?_)
      cases t with
      | nil => cases hquote
      | cons d t => exact hsingle t (congrArg (· :: t) (Option.some.inj hquote))
  | case4 c t hdouble hsingle n closed hn ih =>
      have hother : c ≠ '"' := hsingle
      rw [hn] at ih
      refine ih.shift (fun i hi => ?_) fun _ => closesVerbatim_succ hother
      obtain rfl : i = 0 := Nat.lt_one_iff.mp hi
      exact not_closesVerbatim_zero hother

/-- What is found behind the characters that open a block comment. -/
def commentTail (t : Text) : Nat × Bool :=
  match indexOf? "*/" t with
  | some n => (n + 2, true)
  | none => (t.length, false)

/-- A block comment ends with the first `*/` behind its opening. -/
theorem commentTail_finds (t : Text) : Finds (OccursAt "*/" t) 2 t.length (commentTail t) := by
  unfold commentTail
  split
  · next n hn => exact Or.inl ⟨n, isFirst_of_indexOf? hn, rfl⟩
  · next hnone => exact Finds.none (not_occursAt_of_indexOf? hnone)

theorem blockComment_eq (t : Text) :
    blockComment ('/' :: '*' :: t) =
      Cut.ofCount .comment (2 + (commentTail t).1) (if (commentTail t).2 then none else some .blockComment) := by
  show (match indexOf? "*/" t with
    | some n => Cut.ofCount .comment (n + 4)
    | none => Cut.ofCount .comment (t.length + 2) (some .blockComment)) = _
  unfold commentTail
  cases indexOf? "*/" t with
  | none => exact congrArg (Cut.ofCount .comment · (some .blockComment)) (Nat.add_comm _ 2)
  | some n => exact congrArg (Cut.ofCount .comment · none) (show n + 4 = 2 + (n + 2) by omega)

end CSharp

/-! ## Openings and ends -/

/-- The literals and comments of C# that have an end of their own. -/
inductive Enclosure where
  | string
  | interpolated
  | character
  | verbatim
  | interpolatedVerbatim
  | verbatimInterpolated
  | comment
  deriving DecidableEq, Repr

namespace Enclosure

/-- The characters that open it. -/
def opener : Enclosure → Text
  | string => "\""
  | interpolated => "$\""
  | character => "'"
  | verbatim => "@\""
  | interpolatedVerbatim => "$@\""
  | verbatimInterpolated => "@$\""
  | comment => "/*"

/-- The kind of its token. -/
def kind : Enclosure → TokenKind
  | character => .character
  | comment => .comment
  | _ => .string

/-- The part of the text behind the opening in which it can be closed. -/
def reach : Enclosure → Text → Text
  | string, t | interpolated, t | character, t => lineAhead t
  | _, t => t

/-- It is closed by what stands behind the given number of characters. -/
def ClosesAt : Enclosure → Text → Nat → Prop
  | string | interpolated => ClosesQuoted '"'
  | character => ClosesQuoted '\''
  | verbatim | interpolatedVerbatim | verbatimInterpolated => ClosesVerbatim
  | comment => OccursAt "*/"

/-- The number of characters that close it. -/
def width : Enclosure → Nat
  | comment => 2
  | _ => 1

/-- How its token breaks off if it is not closed. -/
def flaw : Enclosure → Flaw
  | string | interpolated => .string
  | character => .character
  | verbatim | interpolatedVerbatim | verbatimInterpolated => .verbatimString
  | comment => .blockComment

/-- The identifier of the report that it is not closed. -/
def rule : Enclosure → Text
  | comment => "RZ1001"
  | _ => "RZ1000"

/-- The characters behind the opening that belong to it, and whether it is closed. -/
def tail : Enclosure → Text → Nat × Bool
  | string, t | interpolated, t => CSharp.quotedTail '"' t
  | character, t => CSharp.quotedTail '\'' t
  | verbatim, t | interpolatedVerbatim, t | verbatimInterpolated, t => CSharp.verbatimTail t
  | comment, t => CSharp.commentTail t

/-- What is found is the first end. -/
theorem tail_finds (e : Enclosure) (t : Text) :
    Finds (e.ClosesAt (e.reach t)) e.width (e.reach t).length (e.tail t) := by
  cases e with
  | string | interpolated => exact CSharp.quotedTail_finds (by decide) (by decide) t
  | character => exact CSharp.quotedTail_finds (by decide) (by decide) t
  | verbatim | interpolatedVerbatim | verbatimInterpolated => exact CSharp.verbatimTail_finds t
  | comment => exact CSharp.commentTail_finds t

/-- A text that begins with an opening is cut behind what is found there. -/
theorem cut_opener (e : Enclosure) {c : Char} {t rest : Text} (h : e.opener ++ t = c :: rest) :
    CSharp.cut c rest =
      Cut.ofCount e.kind (e.opener.length + (e.tail t).1) (if (e.tail t).2 then none else some e.flaw) := by
  cases e with
  | comment =>
      obtain ⟨rfl, rfl⟩ := List.cons.inj h
      exact CSharp.blockComment_eq t
  | _ =>
      obtain ⟨rfl, rfl⟩ := List.cons.inj h
      rfl

theorem opener_ne_nil (e : Enclosure) : e.opener ≠ [] := by
  cases e with
  | _ => exact List.cons_ne_nil _ _

theorem reach_prefix (e : Enclosure) (t : Text) : e.reach t <+: t := by
  cases e with
  | string | interpolated | character => exact List.takeWhile_prefix _
  | _ => exact List.prefix_rfl

/-- A token goes from an opening to the first end of it, and nothing is reported; if there is no end, it goes as
    far as there might be one, and that is reported once. -/
def Spans (e : Enclosure) (t : Text) (u : Token) : Prop :=
  (∃ n, IsFirst (e.ClosesAt (e.reach t)) n ∧ u.content = e.opener ++ t.take (n + e.width) ∧ u.diagnostics = []) ∨
    ((∀ n, ¬ e.ClosesAt (e.reach t) n) ∧ u.content = e.opener ++ e.reach t ∧
      ∃ x, u.diagnostics = [x] ∧ x.id = e.rule)

theorem id_of_flaw (e : Enclosure) : e.flaw.cause.id = e.rule := by
  cases e with
  | _ => rfl

/-- A token that is cut behind what is found there. -/
theorem spans_of_tail {e : Enclosure} {t : Text} {u : Token}
    (hcontent : u.content = e.opener ++ t.take (e.tail t).1)
    (hflaw : u.flaw = if (e.tail t).2 then none else some e.flaw) : e.Spans t u := by
  rcases e.tail_finds t with ⟨n, hfirst, hfound⟩ | ⟨hnone, hfound⟩
  · rw [hfound] at hcontent hflaw
    exact Or.inl ⟨n, hfirst, hcontent, by rw [Token.diagnostics, hflaw]; rfl⟩
  · rw [hfound] at hcontent hflaw
    refine Or.inr ⟨hnone, ?_, ⟨e.flaw.cause, u.span.path, u.span.start, e.flaw.marked⟩, ?_, e.id_of_flaw⟩
    · rw [hcontent, ← List.prefix_iff_eq_take.mp (e.reach_prefix t)]
    · rw [Token.diagnostics, hflaw]
      rfl

end Enclosure

/-- The body of a Razor comment ends before the first `*@`, and nothing is reported; if there is none, it goes to
    the end of the text, and that is reported once. -/
def Token.IsCommentBody (t : Text) (u : Token) : Prop :=
  (∃ n, IsFirst (OccursAt "*@" t) n ∧ u.content = t.take n ∧ u.diagnostics = []) ∨
    ((∀ n, ¬ OccursAt "*@" t n) ∧ u.content = t ∧ ∃ x, u.diagnostics = [x] ∧ x.id = "RZ1002".toList)

namespace Tokenizer

variable {s s' : Tokenizer} {t : Text} {u : Token}

theorem next?_csharp (hlanguage : s.language = .csharp) (hmode : s.mode = .data) {c : Char} {rest : Text}
    (hrest : s.rest = c :: rest) {k : Cut} (hcut : CSharp.cut c rest = k) :
    s.next? = some (s.emit k.kind k.flaw (c :: rest.take k.more) (rest.drop k.more) k.mode) :=
  next?_of_data hmode hrest (by rw [hlanguage]; exact hcut)

/-- Behind an opening the token is cut where the scan of what follows it ends. -/
theorem next?_opener (hlanguage : s.language = .csharp) (hmode : s.mode = .data) {e : Enclosure}
    (hrest : s.rest = e.opener ++ t) :
    ∃ u s', s.next? = some (u, s') ∧ s'.mode = .data ∧ u.kind = e.kind ∧ e.Spans t u := by
  cases htext : e.opener ++ t with
  | nil => exact absurd (List.append_eq_nil_iff.mp htext).1 e.opener_ne_nil
  | cons c rest =>
      have hnext := next?_csharp hlanguage hmode (hrest.trans htext) (e.cut_opener htext)
      refine ⟨_, _, hnext, rfl, rfl, Enclosure.spans_of_tail ?_ rfl⟩
      have hpos : 0 < e.opener.length + (e.tail t).1 :=
        Nat.add_pos_left (List.length_pos_iff.mpr e.opener_ne_nil) _
      show c :: rest.take (Cut.ofCount _ _ _).more = _
      rw [Cut.take_ofCount hpos, ← htext, List.take_length_add_append]

theorem next?_commentTransition (hlanguage : s.language = .csharp) (hmode : s.mode = .data)
    (hrest : s.rest = '@' :: '*' :: t) :
    ∃ mark s', s.next? = some (mark, s') ∧ mark.content = ['@'] ∧ s'.mode = .commentOpened ∧
      s'.rest = '*' :: t := by
  generalize hs : s.emit .commentTransition none ['@'] ('*' :: t) .commentOpened = next
  refine ⟨next.1, next.2, ?_, hs ▸ rfl, hs ▸ rfl, hs ▸ rfl⟩
  rw [← hs]
  exact next?_csharp hlanguage hmode hrest (k := { kind := .commentTransition, mode := .commentOpened }) rfl

theorem next?_commentOpened (hmode : s.mode = .commentOpened) (hrest : s.rest = '*' :: t) :
    ∃ star s', s.next? = some (star, s') ∧ star.content = ['*'] ∧ s'.mode = .commentBody ∧ s'.rest = t := by
  generalize hs : s.emit .commentStar none ['*'] t .commentBody = next
  refine ⟨next.1, next.2, ?_, hs ▸ rfl, hs ▸ rfl, hs ▸ rfl⟩
  rw [← hs]
  unfold next?
  rw [if_neg (by rw [hmode]; decide), hrest]
  show some (s.emit (cut s.language s.mode '*' t).kind _ _ _ _) = _
  rw [hmode]
  rfl

theorem next?_commentBody (hmode : s.mode = .commentBody) : s.next? = some s.nextBody := by
  unfold next?
  rw [if_pos hmode]

theorem nextBody_isCommentBody (s : Tokenizer) :
    s.nextBody.1.kind = .commentBody ∧ s.nextBody.1.IsCommentBody s.rest := by
  refine ⟨s.nextBody_kind, ?_⟩
  unfold nextBody
  split
  · next n hn => exact Or.inl ⟨n, isFirst_of_indexOf? hn, rfl, rfl⟩
  · next hnone => exact Or.inr ⟨not_occursAt_of_indexOf? hnone, rfl, _, rfl, rfl⟩

/-- Behind `@*`, which is two tokens, comes the body of a comment. -/
theorem tokens_comment (hlanguage : s.language = .csharp) (hmode : s.mode = .data)
    (hrest : s.rest = '@' :: '*' :: t) :
    ∃ mark star body more, s.tokens = mark :: star :: body :: more ∧
      contentOf [mark, star] = ['@', '*'] ∧ body.kind = .commentBody ∧ body.IsCommentBody t := by
  obtain ⟨mark, s₁, hmark, hat, hmode₁, hrest₁⟩ := next?_commentTransition hlanguage hmode hrest
  obtain ⟨star, s₂, hstar, hasterisk, hmode₂, rfl⟩ := next?_commentOpened hmode₁ hrest₁
  refine ⟨mark, star, s₂.nextBody.1, s₂.nextBody.2.tokens, ?_, ?_, s₂.nextBody_isCommentBody⟩
  · rw [tokens_of_next?_eq_some hmark, tokens_of_next?_eq_some hstar,
      tokens_of_next?_eq_some (next?_commentBody hmode₂)]
    rfl
  · rw [contentOf_cons, contentOf_cons, hat, hasterisk]
    rfl

end Tokenizer

/-! ## Other tokens -/

/-- The kinds of literals and comments that have an end of their own, and of comments that end with the line. -/
def TokenKind.isEnclosed : TokenKind → Bool
  | .string | .character | .comment => true
  | _ => false

namespace CSharp

theorem isEnclosed_symbolKind (s : Symbol) : (symbolKind s).isEnclosed = false := by
  cases s with
  | _ => rfl

theorem lexeme_plain (t : Text) : (lexeme t).flaw = none ∧ (lexeme t).kind.isEnclosed = false := by
  unfold lexeme
  split
  · next l _ =>
      refine ⟨rfl, ?_⟩
      show (lexemeKind l.kind _).isEnclosed = false
      cases l.kind with
      | identifier =>
          unfold lexemeKind
          dsimp only
          split
          · rfl
          · rfl
      | symbol s => exact isEnclosed_symbolKind s
      | _ => rfl
  · exact ⟨rfl, rfl⟩

/-- A text of C# begins with an opening or with a comment that ends with its line, or with a token that is none of
    these and does not break off. -/
theorem cut_cases (c : Char) (rest : Text) :
    (∃ e t, c :: rest = Enclosure.opener e ++ t) ∨
      ((cut c rest).flaw = none ∧ (['/', '/'] <+: c :: rest ∨ (cut c rest).kind.isEnclosed = false)) := by
  unfold cut
  dsimp only
  split
  · exact Or.inr ⟨Cut.flaw_lineBreak c rest, Or.inr (by rw [Cut.kind_lineBreak]; rfl)⟩
  · split
    · exact Or.inr ⟨rfl, Or.inr rfl⟩
    · split
      · exact Or.inl ⟨.verbatim, _, rfl⟩
      · exact Or.inl ⟨.verbatimInterpolated, _, rfl⟩
      · refine Or.inr ⟨Cut.flaw_transition _, Or.inr ?_⟩
        rcases Cut.kind_transition rest with hkind | hkind
        · rw [hkind]; rfl
        · rw [hkind]; rfl
      · exact Or.inl ⟨.string, _, rfl⟩
      · exact Or.inl ⟨.character, _, rfl⟩
      · exact Or.inl ⟨.interpolated, _, rfl⟩
      · exact Or.inl ⟨.interpolatedVerbatim, _, rfl⟩
      · exact Or.inl ⟨.comment, _, rfl⟩
      · exact Or.inr ⟨rfl, Or.inl ⟨_, rfl⟩⟩
      · exact Or.inr ((lexeme_plain _).imp_right Or.inr)

end CSharp

namespace Tokenizer

variable {s s' : Tokenizer} {u : Token}

/-- A literal or a comment that starts where nothing is remembered begins with an opening, unless it is a comment
    that ends with its line, and nothing else breaks off. -/
theorem exists_opener (hlanguage : s.language = .csharp) (hmode : s.mode = .data) (h : s.next? = some (u, s'))
    (hkind : u.kind.isEnclosed = true ∨ u.diagnostics ≠ []) :
    (∃ e t, s.rest = Enclosure.opener e ++ t ∧ u.kind = e.kind) ∨ (['/', '/'] <+: s.rest ∧ u.diagnostics = []) := by
  cases hrest : s.rest with
  | nil =>
      unfold next? at h
      rw [if_neg (by rw [hmode]; decide), hrest] at h
      exact nomatch h
  | cons c rest =>
      rcases CSharp.cut_cases c rest with ⟨e, t, htext⟩ | ⟨hflaw, hcut⟩
      · left
        obtain ⟨u', s'', hnext, -, hkind', -⟩ := next?_opener hlanguage hmode (hrest.trans htext)
        obtain ⟨rfl, -⟩ := Prod.mk.inj (Option.some.inj (h.symm.trans hnext))
        exact ⟨e, t, htext, hkind'⟩
      · right
        obtain ⟨rfl, -⟩ := Prod.mk.inj (Option.some.inj (h.symm.trans (next?_csharp hlanguage hmode hrest rfl)))
        have hnone : Token.diagnostics (s.emit (CSharp.cut c rest).kind (CSharp.cut c rest).flaw
            (c :: rest.take (CSharp.cut c rest).more) (rest.drop (CSharp.cut c rest).more)
            (CSharp.cut c rest).mode).1 = [] := by
          show ((CSharp.cut c rest).flaw.toList.map _ : List Diagnostic) = []
          rw [hflaw]
          rfl
        refine ⟨hcut.resolve_right fun hplain => ?_, hnone⟩
        rcases hkind with hkind | hreport
        · exact Bool.false_ne_true (hplain.symm.trans hkind)
        · exact hreport hnone

/-- Literals and comments of C# are recognised exactly. Where nothing is remembered, what an opening begins goes to
    the first end: a quote of the same line that is not escaped, a quote that is not one of two, or `*/`. What is
    not closed goes to the end of the line or of the text, and is reported once. The body of a Razor comment goes to
    the first `*@`, and otherwise likewise to the end of the text. No other token is a literal or a comment, except
    for the comments that end with their line, and none is reported. -/
theorem literals_and_comments (hlanguage : s.language = .csharp) (hmode : s.mode = .data) :
    (∀ e t, s.rest = Enclosure.opener e ++ t →
      ∃ u s', s.next? = some (u, s') ∧ s'.mode = .data ∧ u.kind = e.kind ∧ e.Spans t u) ∧
    (∀ t, s.rest = '@' :: '*' :: t → ∃ mark star body more, s.tokens = mark :: star :: body :: more ∧
      contentOf [mark, star] = ['@', '*'] ∧ body.kind = .commentBody ∧ body.IsCommentBody t) ∧
    ∀ u s', s.next? = some (u, s') → u.kind.isEnclosed = true ∨ u.diagnostics ≠ [] →
      (∃ e t, s.rest = Enclosure.opener e ++ t ∧ u.kind = e.kind) ∨
        (['/', '/'] <+: s.rest ∧ u.diagnostics = []) :=
  ⟨fun _ _ hrest => next?_opener hlanguage hmode hrest, fun _ hrest => tokens_comment hlanguage hmode hrest,
    fun _ _ hnext hkind => exists_opener hlanguage hmode hnext hkind⟩

/-- A comment whose opening is not its end, and a string with escapes that its line does not close. -/
theorem literals_and_comments_overlapping :
    (∃ u s', (start .csharp none .start "/*/ */x").next? = some (u, s') ∧ s'.mode = .data ∧ u.kind = .comment ∧
      Enclosure.comment.Spans "/ */x" u) ∧
    ∃ u s', (start .csharp none .start "$\"a\\\"b\\\n\"").next? = some (u, s') ∧ s'.mode = .data ∧
      u.kind = .string ∧ Enclosure.interpolated.Spans "a\\\"b\\\n\"" u :=
  ⟨(literals_and_comments (s := start .csharp none .start "/*/ */x") rfl rfl).1 .comment "/ */x" rfl,
    (literals_and_comments (s := start .csharp none .start "$\"a\\\"b\\\n\"") rfl rfl).1 .interpolated
      "a\\\"b\\\n\"" rfl⟩

end Tokenizer

end RazorLang
