import RazorLang.Proofs.Editor.Buffer

/-!
# Positions by reading

The position of a place in a buffer is where reading the text before it leads (`Buffer.position?_size`), and
a position leads to the places that it names: to the one that it is the position of, and to the surrogate
pair that it is inside of (`Buffer.index?_eq_some_iff`). So what is said of positions can be proved along
texts, and lines need not be looked at.

Main statement: `Buffer.position?_index?_inverse` — positions and offsets of places are inverse to each other,
but for the positions inside of a surrogate pair, and they have the same order, since reading on leads to
later positions (`Position.isBefore_advance`).
-/

namespace RazorLang

open Text

namespace Position

/-- The position behind a character that is here. -/
def step (p : Position) (c : Char) : Position :=
  if Buffer.isBreak c then ⟨p.line + 1, 0⟩ else ⟨p.line, p.units + Buffer.width c⟩

/-- The position reached by reading a text from here. -/
def advance (p : Position) : Text → Position
  | [] => p
  | '\r' :: '\n' :: t => advance ⟨p.line + 1, 0⟩ t
  | c :: t => advance (p.step c) t

/-- A position names the place between two texts: it is the position of that place, or inside of a surrogate
    pair there. -/
def Names (p : Position) (u v : Text) : Prop :=
  p.line = (start.advance u).line ∧
    (p.units = (start.advance u).units ∨
      ∃ c w, v = c :: w ∧ Buffer.width c = 2 ∧ p.units = (start.advance u).units + 1)

/-- A position is before another one. -/
def IsBefore (p q : Position) : Prop := p.line < q.line ∨ p.line = q.line ∧ p.units < q.units

variable {p q r : Position} {u v : Text} {c : Char}

theorem advance_break (p : Position) (t : Text) :
    p.advance ('\r' :: '\n' :: t) = advance ⟨p.line + 1, 0⟩ t := by
  rw [advance]

theorem advance_cons {t : Text} (h : ¬ PartsBreak [c] t) (p : Position) :
    p.advance (c :: t) = (p.step c).advance t := by
  rw [advance]
  rintro t rfl rfl
  exact h ⟨rfl, rfl⟩

/-- Reading two texts, one behind the other, whose cut is whole. -/
theorem advance_append (h : ¬ PartsBreak u v) (p : Position) :
    p.advance (u ++ v) = (p.advance u).advance v := by
  induction p, u using advance.induct with
  | case1 p => rfl
  | case2 p u ih =>
      have hu : ¬ PartsBreak u v := not_partsBreak_of_append (u := ['\r', '\n']) h
      rw [List.cons_append, List.cons_append, advance_break, advance_break, ih hu]
  | case3 p c u hnot ih =>
      have hu : ¬ PartsBreak u v := not_partsBreak_of_append (u := [c]) h
      have hc := not_partsBreak_append_right h (not_break_of_forall hnot)
      rw [List.cons_append, advance_cons hc, ih hu, advance_cons (not_break_of_forall hnot)]

/-- Reading on within a line. -/
theorem advance_plain (hu : ∀ c ∈ u, Buffer.isBreak c = false) (p : Position) :
    p.advance u = ⟨p.line, p.units + Buffer.units u⟩ := by
  induction u generalizing p with
  | nil => rfl
  | cons c u ih =>
      have hc : Buffer.isBreak c = false := hu c List.mem_cons_self
      have hnot : ¬ PartsBreak [c] u := by
        rintro ⟨hlast, -⟩
        obtain rfl : c = '\r' := Option.some.inj hlast
        exact nomatch hc
      rw [advance_cons hnot, ih fun d hd => hu d (List.mem_cons_of_mem c hd), step,
        if_neg (Bool.eq_false_iff.mp hc), Buffer.units, Nat.add_assoc]

theorem IsBefore.trans (hpq : p.IsBefore q) (hqr : q.IsBefore r) : p.IsBefore r := by
  rw [IsBefore] at hpq hqr ⊢
  omega

theorem isBefore_step (p : Position) (c : Char) : p.IsBefore (p.step c) := by
  rw [step]
  split
  · exact Or.inl (Nat.lt_succ_self p.line)
  · refine Or.inr ⟨rfl, Nat.lt_add_of_pos_right ?_⟩
    exact Buffer.width_pos c

/-- Reading on leads to a later position. -/
theorem isBefore_advance (hne : u ≠ []) (p : Position) : p.IsBefore (p.advance u) := by
  induction p, u using advance.induct with
  | case1 p => exact absurd rfl hne
  | case2 p u ih =>
      have hbreak : p.IsBefore ⟨p.line + 1, 0⟩ := Or.inl (Nat.lt_succ_self p.line)
      rw [advance_break]
      cases u with
      | nil => exact hbreak
      | cons c u => exact hbreak.trans (ih (List.cons_ne_nil c u))
  | case3 p c u hnot ih =>
      rw [advance_cons (not_break_of_forall hnot)]
      cases u with
      | nil => exact p.isBefore_step c
      | cons d u => exact (p.isBefore_step c).trans (ih (List.cons_ne_nil d u))

end Position

namespace Buffer

open Position

variable {b : Buffer} {ls before behind : List Line} {l : Line} {u v x y : Text} {i : Nat} {c : Char}

theorem width_of_isBreak (h : isBreak c = true) : width c = 1 := by
  rw [isBreak] at h
  simp only [Bool.or_eq_true, Bool.and_eq_true, decide_eq_true_eq, beq_iff_eq] at h
  rw [width, if_pos]
  omega

/-- Reading a line and its break leads to the start of the next line. -/
theorem Split.advance_line (h : Split (l :: ls)) (hne : ls ≠ []) (p : Position) :
    p.advance l.text = ⟨p.line + 1, 0⟩ := by
  have hplain := advance_plain h.plain p
  rcases h.ending hne with hending | ⟨c, hc, hending, -⟩
  · have hwhole : ¬ PartsBreak l.body ['\r', '\n'] := fun hparts => absurd hparts.2 (by decide)
    rw [Line.text, hending, advance_append hwhole, hplain, advance_break]
    rfl
  · have hwhole : ¬ PartsBreak l.body [c] := by
      rintro ⟨hlast, -⟩
      exact Bool.false_ne_true ((h.plain _ (List.mem_of_getLast? hlast)).symm.trans rfl)
    rw [Line.text, hending, advance_append hwhole, hplain, advance_cons (not_partsBreak_nil_right _),
      step, if_pos hc]
    rfl

/-- Behind the body of a line is a break, or nothing at all. -/
theorem Split.width_eq_one (h : Split (l :: ls)) (hnext : l.ending ++ textOf ls = c :: v) :
    width c = 1 := by
  cases h with
  | last plain => exact nomatch hnext
  | cons plain ending tail =>
      rcases ending with hending | ⟨d, hd, hending, -⟩
      · rw [hending] at hnext
        obtain ⟨rfl, -⟩ := List.cons.inj hnext
        rfl
      · rw [hending] at hnext
        obtain ⟨rfl, -⟩ := List.cons.inj hnext
        exact width_of_isBreak hd

/-- Reading some lines leads to the start of the line behind them. -/
theorem Split.advance_lines (h : Split (before ++ l :: behind)) (n : Nat) :
    advance ⟨n, 0⟩ (textOf before) = ⟨n + before.length, 0⟩ := by
  induction before generalizing n with
  | nil => rfl
  | cons first before ih =>
      have hne := List.append_ne_nil_of_right_ne_nil before (List.cons_ne_nil l behind)
      have hwhole : ¬ PartsBreak first.text (textOf before) := by
        obtain ⟨next, rest, hrest⟩ := List.exists_cons_of_ne_nil hne
        have hlines : Split ([first] ++ next :: rest) := hrest ▸ h
        have hparts := hlines.not_partsBreak_lines
        rw [textOf_cons, textOf_nil, List.append_nil, ← hrest, textOf_append] at hparts
        exact not_partsBreak_of_append_right hparts
      rw [textOf_cons, advance_append hwhole, h.advance_line hne, ih (h.tail hne), List.length_cons,
        Nat.add_assoc, Nat.add_comm 1]

/-- Reading up to a place in a line leads to its line and its units. -/
theorem Split.advance_eq (h : Split (before ++ l :: behind)) (hbody : l.body = x ++ y) :
    Position.start.advance (textOf before ++ x) = ⟨before.length, units x⟩ := by
  have hplain : ∀ c ∈ x, isBreak c = false := by
    intro c hc
    refine h.of_append.plain c ?_
    rw [hbody]
    exact List.mem_append_left y hc
  have hwhole : ¬ PartsBreak (textOf before) x := by
    have hparts := h.not_partsBreak_lines
    rw [textOf_cons, Line.text, hbody, List.append_assoc, List.append_assoc] at hparts
    exact not_partsBreak_of_append_right hparts
  rw [advance_append hwhole, Position.start, h.advance_lines, advance_plain hplain, Nat.zero_add, Nat.zero_add]

/-- The position of a place is where reading up to it leads. -/
theorem position?_size (htext : b.text = u ++ v) (hwhole : ¬ PartsBreak u v) :
    b.position? (Text.size u) = some (Position.start.advance u) := by
  have hsplit := split_linesOf b.text
  obtain ⟨before, l, behind, x, y, hlines, hbody, rfl⟩ :=
    hsplit.exists_line ((text_lines b).trans htext) hwhole
  rw [hlines] at hsplit
  rw [position?, show b.lines = before ++ l :: behind from hlines, hsplit.positionIn?_eq hbody,
    hsplit.advance_eq hbody, Nat.zero_add]

/-- A position leads to the place that it names. -/
theorem index?_eq_some_iff {p : Position} :
    b.index? p = some i ↔
      ∃ u v, b.text = u ++ v ∧ Text.size u = i ∧ ¬ PartsBreak u v ∧ p.Names u v := by
  have hsplit := split_linesOf b.text
  constructor
  · intro h
    obtain ⟨before, l, behind, x, y, hlines, hbody, rfl, hline, hreaches⟩ := exists_line_of_index? h
    rw [show linesOf b.text = before ++ l :: behind from hlines] at hsplit
    refine ⟨textOf before ++ x, y ++ l.ending ++ textOf behind, ?_, rfl, hsplit.not_partsBreak hbody, ?_⟩
    · rw [← text_lines, hlines, textOf_append, textOf_cons, Line.text, hbody]
      simp only [List.append_assoc]
    · rw [Names, hsplit.advance_eq hbody]
      refine ⟨hline, hreaches.imp_right ?_⟩
      rintro ⟨c, w, rfl, hwidth, hunits⟩
      exact ⟨c, _, rfl, hwidth, hunits⟩
  · rintro ⟨u, v, htext, rfl, hwhole, hline, hunits⟩
    obtain ⟨before, l, behind, x, y, hlines, hbody, rfl⟩ :=
      hsplit.exists_line ((text_lines b).trans htext) hwhole
    rw [hlines] at hsplit
    rw [hsplit.advance_eq hbody] at hline hunits
    obtain ⟨line, n⟩ := p
    obtain rfl : line = before.length := hline
    refine index?_eq hlines hbody (hunits.imp_right ?_)
    rintro ⟨c, w, hv, hwidth, hn⟩
    -- what is behind the place in its line is not a break, which has one unit
    have hnext : y ++ (l.ending ++ textOf behind) = c :: w := by
      have hall : textOf (linesOf b.text) = _ := (text_lines b).trans htext
      rw [hlines, textOf_append, textOf_cons, Line.text, hbody, hv] at hall
      simpa using hall
    cases y with
    | cons d y =>
        obtain ⟨rfl, -⟩ := List.cons.inj hnext
        exact ⟨d, y, rfl, hwidth, hn⟩
    | nil =>
        refine absurd hwidth (Nat.ne_of_lt ?_)
        rw [hsplit.of_append.width_eq_one hnext]
        exact Nat.lt_succ_self 1

/-! ## Positions and offsets -/

/-- A position is inside of a surrogate pair that starts at another position. -/
def IsInPair (b : Buffer) (p q : Position) : Prop :=
  ∃ u c v, b.text = u ++ c :: v ∧ width c = 2 ∧ b.position? (Text.size u) = some q ∧
    p = ⟨q.line, q.units + 1⟩

/-- No `\r\n` is parted in front of a surrogate pair. -/
theorem not_partsBreak_of_width (hwidth : width c = 2) : ¬ PartsBreak u (c :: v) := by
  rintro ⟨-, hhead⟩
  obtain rfl : c = '\n' := Option.some.inj hhead
  exact nomatch hwidth

/-- A position inside of a pair leads to the start of the pair. -/
theorem IsInPair.position? {p q : Position} (h : b.IsInPair p q) (hi : b.index? p = some i) :
    b.position? i = some q := by
  obtain ⟨u, c, v, htext, hwidth, hq, rfl⟩ := h
  have hwhole : ¬ PartsBreak u (c :: v) := not_partsBreak_of_width hwidth
  have hstart : q = start.advance u := Option.some.inj (hq.symm.trans (position?_size htext hwhole))
  have hindex : b.index? ⟨q.line, q.units + 1⟩ = some (Text.size u) := by
    refine index?_eq_some_iff.mpr ⟨u, c :: v, htext, rfl, hwhole, ?_, Or.inr ⟨c, v, rfl, hwidth, ?_⟩⟩
    · rw [hstart]
    · rw [hstart]
  rw [← Option.some.inj (hindex.symm.trans hi)]
  exact hq

/-- A position that is inside of no pair is the position of the offset that it leads to. -/
theorem position?_of_index? {p : Position} (hi : b.index? p = some i) (hnot : ∀ q, ¬ b.IsInPair p q) :
    b.position? i = some p := by
  obtain ⟨u, v, htext, rfl, hwhole, hline, hunits⟩ := index?_eq_some_iff.mp hi
  have hposition := position?_size htext hwhole
  obtain ⟨line, units⟩ := p
  rcases hunits with hunits | ⟨c, w, rfl, hwidth, hunits⟩
  · rw [hposition, show line = _ from hline, show units = _ from hunits]
  · refine absurd ⟨u, c, w, htext, hwidth, hposition, ?_⟩ (hnot _)
    rw [← show line = _ from hline, ← show units = _ from hunits]

/-- Of two places, the one with the smaller offset has the earlier position. -/
theorem IsPlace.isBefore {p q : Position} {j : Nat} (hi : b.IsPlace i) (hj : b.IsPlace j) (hlt : i < j)
    (hp : b.position? i = some p) (hq : b.position? j = some q) : p.IsBefore q := by
  obtain ⟨u, v, w, htext, rfl, rfl, hu, hv⟩ := hi.exists_parts hj (Nat.le_of_lt hlt)
  have hwhole : ¬ PartsBreak u v := not_partsBreak_of_append_right hu
  have hne : v ≠ [] := by
    rintro rfl
    rw [List.append_nil] at hlt
    exact absurd rfl (Nat.ne_of_lt hlt)
  rw [position?_size (htext.trans (List.append_assoc u v w)) hu] at hp
  rw [position?_size htext hv, advance_append hwhole] at hq
  rw [← Option.some.inj hp, ← Option.some.inj hq]
  exact isBefore_advance hne _

/-- Positions and offsets are inverse to each other: the position of a place leads back to it, and a position
    that leads to a place is its position, unless it is inside of a surrogate pair, when the place has the
    position of the start of the pair. Places have the order of their positions. -/
theorem position?_index?_inverse (b : Buffer) :
    (∀ i, b.IsPlace i → ∃ p, b.position? i = some p ∧ b.index? p = some i) ∧
      (∀ p i, b.index? p = some i → b.IsPlace i ∧
        ((∀ q, ¬ b.IsInPair p q) → b.position? i = some p) ∧
        ∀ q, b.IsInPair p q → b.position? i = some q) ∧
      ∀ i j p q, b.IsPlace i → b.IsPlace j → b.position? i = some p → b.position? j = some q →
        i < j → p.IsBefore q :=
  ⟨fun _ hi => hi.exists_position?,
    fun _ _ hi => ⟨isPlace_of_index? hi, position?_of_index? hi, fun _ hpair => hpair.position? hi⟩,
    fun _ _ _ _ hi hj hp hq hlt => hi.isBefore hj hlt hp hq⟩

/-- A position inside of the pair that stands behind a `\r\n`, and the positions on both sides of the pair. -/
theorem position?_index?_inverse_pair :
    let b : Buffer := ⟨"a\r\n𝄞x".toList⟩
    b.index? ⟨1, 1⟩ = some 3 ∧ b.position? 3 = some ⟨1, 0⟩ ∧
      (∃ p, b.position? 7 = some p ∧ b.index? p = some 7) ∧ IsBefore ⟨1, 0⟩ ⟨1, 2⟩ := by
  intro b
  obtain ⟨hplaces, hpositions, hordered⟩ := position?_index?_inverse b
  have hstart : b.index? ⟨1, 0⟩ = some 3 := by decide
  have hinside : b.index? ⟨1, 1⟩ = some 3 := by decide
  have hstop : b.index? ⟨1, 2⟩ = some 7 := by decide
  have hpair : b.IsInPair ⟨1, 1⟩ ⟨1, 0⟩ := ⟨"a\r\n".toList, '𝄞', ['x'], by decide, by decide, by decide, rfl⟩
  exact ⟨hinside, (hpositions _ _ hinside).2.2 _ hpair, hplaces 7 (isPlace_of_index? hstop),
    hordered 3 7 _ _ (isPlace_of_index? hstart) (isPlace_of_index? hstop) (by decide) (by decide) (by decide)⟩

end Buffer

end RazorLang
