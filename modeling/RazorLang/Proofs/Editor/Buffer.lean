import RazorLang.Editor.Buffer
import RazorLang.Proofs.Source.Lines
import RazorLang.Proofs.Text.Bytes

/-!
# Places in a buffer

Positions and offsets name the same places of a buffer, `Buffer.IsPlace`: those between two characters, but
not between the two characters of a `\r\n`. A position that has an offset leads to such a place
(`Buffer.isPlace_of_index?`), and each such place has a position that leads back to it
(`Buffer.IsPlace.exists_position?`).

The route: the lines of a text are as they should be (`Buffer.split_linesOf`), so a place is in exactly one of
them, in front of its break (`Buffer.Split.exists_line`), where walking the lines finds it
(`Buffer.Split.positionIn?_eq`).
-/

namespace RazorLang

open Text

namespace Buffer

/-- Lines as a text is split into them: no body has a break in it, and each line but the last one ends with a
    whole break. -/
inductive Split : List Line → Prop where
  | last {body : Text} (plain : ∀ c ∈ body, isBreak c = false) : Split [⟨body, []⟩]
  | cons {l : Line} {rest : List Line} (plain : ∀ c ∈ l.body, isBreak c = false)
      (ending : l.ending = ['\r', '\n'] ∨
        ∃ c, isBreak c = true ∧ l.ending = [c] ∧ ¬ PartsBreak [c] (textOf rest))
      (tail : Split rest) : Split (l :: rest)

/-- An offset between two characters that is not inside of a `\r\n`. -/
def IsPlace (b : Buffer) (i : Nat) : Prop :=
  ∃ u v, b.text = u ++ v ∧ Text.size u = i ∧ ¬ PartsBreak u v

/-- The text in a range. -/
def textIn? (b : Buffer) (r : Range) : Option Text :=
  (b.span? r).bind fun (start, stop) => Text.slice? start stop b.text

variable {b : Buffer} {ls before behind : List Line} {l : Line} {u v x y : Text} {i j : Nat}

@[simp] theorem textOf_nil : textOf [] = [] := rfl

@[simp] theorem textOf_cons (l : Line) (ls : List Line) : textOf (l :: ls) = l.text ++ textOf ls := rfl

@[simp] theorem textOf_append (ls more : List Line) :
    textOf (ls ++ more) = textOf ls ++ textOf more := List.flatMap_append

theorem append_cons_of_getElem? (h : ls[i]? = some l) : ls = ls.take i ++ l :: ls.drop (i + 1) := by
  obtain ⟨hlt, hget⟩ := List.getElem?_eq_some_iff.mp h
  rw [← hget, List.getElem_cons_drop, List.take_append_drop]

/-! ## Lines -/

theorem Split.extend {c : Char} (h : Split ls) (hc : isBreak c = false) :
    Split (Buffer.extend c ls) := by
  have hplain {body : Text} (hbody : ∀ d ∈ body, isBreak d = false) :
      ∀ d ∈ c :: body, isBreak d = false := by
    intro d hd
    rcases List.mem_cons.mp hd with rfl | hd
    · exact hc
    · exact hbody d hd
  cases h with
  | last plain => exact Split.last (hplain plain)
  | cons plain ending tail => exact Split.cons (hplain plain) ending tail

theorem split_linesOf (t : Text) : Split (linesOf t) := by
  fun_induction linesOf t with
  | case1 => exact Split.last (List.forall_mem_nil _)
  | case2 t ih => exact Split.cons (List.forall_mem_nil _) (Or.inl rfl) ih
  | case3 c t hnot hbreak ih =>
      refine Split.cons (List.forall_mem_nil _) (Or.inr ⟨c, hbreak, rfl, ?_⟩) ih
      rw [textOf_linesOf]
      exact not_break_of_forall hnot
  | case4 c t hnot hbreak ih => exact ih.extend (Bool.eq_false_iff.mpr hbreak)

/-- What has no break in it is read into the first line. -/
theorem linesOf_append (hu : ∀ c ∈ u, isBreak c = false) (v : Text) :
    linesOf (u ++ v) = u.foldr Buffer.extend (linesOf v) := by
  induction u with
  | nil => rfl
  | cons c u ih =>
      have hc : isBreak c = false := hu c List.mem_cons_self
      rw [List.cons_append, linesOf, if_neg (Bool.eq_false_iff.mp hc), ih fun d hd => hu d (List.mem_cons_of_mem c hd)]
      · rfl
      · rintro t rfl
        exact nomatch hc

theorem foldr_extend (u : Text) (l : Line) (ls : List Line) :
    u.foldr Buffer.extend (l :: ls) = ⟨u ++ l.body, l.ending⟩ :: ls := by
  induction u with
  | nil => rfl
  | cons c u ih =>
      rw [List.foldr_cons, ih]
      rfl

/-- Lines that are as they should be are the lines of what they spell. -/
theorem linesOf_textOf (h : Split ls) : linesOf (textOf ls) = ls := by
  induction h with
  | @last body plain =>
      have hlines := linesOf_append plain []
      rw [linesOf, foldr_extend, List.append_nil] at hlines
      simpa [Line.text] using hlines
  | @cons l rest plain ending tail ih =>
      rw [textOf_cons, Line.text, List.append_assoc, linesOf_append plain]
      rcases ending with hending | ⟨c, hc, hending, hwhole⟩
      · rw [hending, List.cons_append, List.singleton_append, linesOf, ih, foldr_extend, List.append_nil, ← hending]
      · rw [hending, List.singleton_append, linesOf, if_pos hc, ih, foldr_extend, List.append_nil, ← hending]
        rintro t rfl ht
        exact hwhole ⟨rfl, by rw [ht]; rfl⟩

theorem Split.tail (h : Split (l :: ls)) (hne : ls ≠ []) : Split ls := by
  cases h with
  | last plain => exact absurd rfl hne
  | cons plain ending tail => exact tail

/-- A line with another one behind it ends with a whole break. -/
theorem Split.ending (h : Split (l :: ls)) (hne : ls ≠ []) : l.ending = ['\r', '\n'] ∨
    ∃ c, isBreak c = true ∧ l.ending = [c] ∧ ¬ PartsBreak [c] (textOf ls) := by
  cases h with
  | last plain => exact absurd rfl hne
  | cons plain ending tail => exact ending

theorem Split.of_append (h : Split (before ++ l :: behind)) : Split (l :: behind) := by
  induction before with
  | nil => exact h
  | cons first before ih =>
      exact ih (h.tail (List.append_ne_nil_of_right_ne_nil before (List.cons_ne_nil l behind)))

theorem Split.plain (h : Split (l :: ls)) : ∀ c ∈ l.body, isBreak c = false := by
  cases h with
  | last plain => exact plain
  | cons plain ending tail => exact plain

/-- A break that has something on both sides of a cut is a `\r\n`. -/
theorem eq_of_ending_eq_append {c d : Char} {e w : Text}
    (h : l.ending = ['\r', '\n'] ∨ ∃ c, isBreak c = true ∧ l.ending = [c] ∧ ¬ PartsBreak [c] (textOf ls))
    (hparts : l.ending = (d :: e) ++ (c :: w)) : d = '\r' ∧ e = [] ∧ c = '\n' := by
  rcases h with hending | ⟨c', -, hending, -⟩
  · rw [hending] at hparts
    obtain ⟨rfl, htail⟩ := List.cons.inj hparts
    cases e with
    | nil => exact ⟨rfl, rfl, (List.cons.inj htail).1.symm⟩
    | cons _ e => simp at htail
  · rw [hending] at hparts
    simp at hparts

/-- A place in some lines is in one of them, in front of its break. -/
theorem Split.exists_line (h : Split ls) (htext : textOf ls = u ++ v) (hwhole : ¬ PartsBreak u v) :
    ∃ before l behind x y, ls = before ++ l :: behind ∧ l.body = x ++ y ∧ u = textOf before ++ x := by
  -- Along the lines; a place behind the break of a line is at the start of the next one.
  induction h generalizing u with
  | @last body plain =>
      refine ⟨[], ⟨body, []⟩, [], u, v, rfl, ?_, rfl⟩
      simpa [Line.text] using htext
  | @cons l rest plain ending tail ih =>
      have hnext (u' : Text) (hu : u = l.text ++ u') (hrest : textOf rest = u' ++ v) :
          ∃ before l' behind x y, l :: rest = before ++ l' :: behind ∧ l'.body = x ++ y ∧
            u = textOf before ++ x := by
        rw [hu] at hwhole
        obtain ⟨before, l', behind, x, y, rfl, hbody, rfl⟩ := ih hrest (not_partsBreak_of_append hwhole)
        exact ⟨l :: before, l', behind, x, y, rfl, hbody, by rw [hu]; simp⟩
      rw [textOf_cons] at htext
      rcases List.append_eq_append_iff.mp htext with ⟨u', hu, hrest⟩ | ⟨w, hline, hv⟩
      · exact hnext u' hu hrest
      · rcases List.append_eq_append_iff.mp hline with ⟨e, hu, hending⟩ | ⟨y, hbody, -⟩
        · cases w with
          | nil => exact hnext [] (by rw [hline]; simp) hv.symm
          | cons c w =>
              cases e with
              | nil => exact ⟨[], l, rest, l.body, [], rfl, (List.append_nil _).symm, by simpa using hu⟩
              | cons d e =>
                  obtain ⟨rfl, rfl, rfl⟩ := eq_of_ending_eq_append ending hending
                  refine absurd ⟨?_, ?_⟩ hwhole
                  · rw [hu, List.getLast?_append]
                    rfl
                  · rw [hv]
                    rfl
        · exact ⟨[], l, rest, u, y, rfl, hbody, rfl⟩

/-- No `\r\n` is parted where a line ends. -/
theorem Split.not_partsBreak_lines (h : Split (before ++ l :: behind)) :
    ¬ PartsBreak (textOf before) (textOf (l :: behind)) := by
  induction before with
  | nil => exact not_partsBreak_nil_left _
  | cons first before ih =>
      have hne := List.append_ne_nil_of_right_ne_nil before (List.cons_ne_nil l behind)
      rintro ⟨hlast, hhead⟩
      rw [textOf_cons, List.getLast?_append] at hlast
      cases hbefore : (textOf before).getLast? with
      | some c =>
          rw [hbefore] at hlast
          exact ih (h.tail hne) ⟨by rw [hbefore]; exact hlast, hhead⟩
      | none =>
          rw [List.cons_append] at h
          have hending := h.ending hne
          rw [textOf_append, List.getLast?_eq_none_iff.mp hbefore, List.nil_append] at hending
          rw [hbefore, Line.text, List.getLast?_append] at hlast
          rcases hending with hending | ⟨c, -, hending, hwhole⟩
          · rw [hending] at hlast
            exact absurd (Option.some.inj hlast) (by decide)
          · rw [hending] at hlast
            exact hwhole ⟨hlast, hhead⟩

/-- No `\r\n` is parted inside of a line. -/
theorem Split.not_partsBreak (h : Split (before ++ l :: behind)) (hbody : l.body = x ++ y) :
    ¬ PartsBreak (textOf before ++ x) (y ++ l.ending ++ textOf behind) := by
  rintro ⟨hlast, hhead⟩
  rw [List.getLast?_append] at hlast
  cases hx : x.getLast? with
  | some c =>
      rw [hx] at hlast
      have hmem : c ∈ l.body := by
        rw [hbody]
        exact List.mem_append_left y (List.mem_of_getLast? hx)
      rw [Option.some.inj hlast] at hmem
      exact nomatch h.of_append.plain _ hmem
  | none =>
      rw [hx] at hlast
      obtain rfl := List.getLast?_eq_none_iff.mp hx
      refine h.not_partsBreak_lines ⟨hlast, ?_⟩
      rw [textOf_cons, Line.text, hbody]
      exact hhead

/-! ## Walking the lines -/

theorem cut_append (u v : Text) : cut (Text.size u) (u ++ v) = (u, v) := by
  induction u with
  | nil =>
      cases v with
      | nil => rfl
      | cons c v =>
          have hpos := Char.utf8Size_pos c
          rw [size_nil, List.nil_append, cut, if_neg (by omega)]
  | cons c u ih =>
      rw [List.cons_append, cut, size_cons, if_pos (Nat.le_add_right _ _), Nat.add_sub_cancel_left, ih]

theorem width_pos (c : Char) : 0 < width c := by
  rw [width]
  split <;> omega

theorem width_le (c : Char) : width c ≤ 2 := by
  rw [width]
  split <;> omega

/-- A number of units leads to the place between two texts: it is that of the first, or it ends inside of a
    surrogate pair behind it. -/
def Reaches (n : Nat) (x y : Text) : Prop :=
  n = units x ∨ ∃ c w, y = c :: w ∧ width c = 2 ∧ n = units x + 1

theorem Reaches.cons {n : Nat} {c : Char} (h : Reaches n x y) : Reaches (width c + n) (c :: x) y := by
  rcases h with rfl | ⟨d, w, hy, hwidth, rfl⟩
  · exact Or.inl rfl
  · exact Or.inr ⟨d, w, hy, hwidth, (Nat.add_assoc _ _ _).symm⟩

/-- Units lead to the end of the start of a text. -/
theorem Reaches.bytesFor?_eq {n : Nat} (h : Reaches n x y) :
    bytesFor? n (x ++ y) = some (Text.size x) := by
  induction x generalizing n with
  | nil =>
      rcases h with rfl | ⟨c, w, rfl, hwidth, rfl⟩
      · rw [units, bytesFor?, size_nil]
      · rw [List.nil_append, units, bytesFor?, if_neg (by omega), size_nil]
  | cons c x ih =>
      have hpos := width_pos c
      obtain ⟨k, rfl, hk⟩ : ∃ k, n = width c + k ∧ Reaches k x y := by
        rcases h with rfl | ⟨d, w, hy, hwidth, rfl⟩
        · exact ⟨units x, rfl, Or.inl rfl⟩
        · exact ⟨units x + 1, Nat.add_assoc _ _ _, Or.inr ⟨d, w, hy, hwidth, rfl⟩⟩
      obtain ⟨j, hj⟩ : ∃ j, width c + k = j + 1 := Nat.exists_eq_succ_of_ne_zero (by omega)
      have hrest : j + 1 - width c = k := by omega
      rw [hj, List.cons_append, bytesFor?, if_pos (by omega), hrest, ih hk, size_cons]
      rfl

/-- Where units lead to. -/
theorem bytesFor?_eq_some {n k : Nat} {t : Text} (h : bytesFor? n t = some k) :
    ∃ x y, t = x ++ y ∧ Text.size x = k ∧ Reaches n x y := by
  induction t generalizing n k with
  | nil =>
      cases n with
      | zero => exact ⟨[], [], rfl, Option.some.inj h, Or.inl rfl⟩
      | succ n => exact absurd h (Option.some_ne_none k).symm
  | cons c t ih =>
      cases n with
      | zero => exact ⟨[], c :: t, rfl, Option.some.inj h, Or.inl rfl⟩
      | succ n =>
          rw [bytesFor?] at h
          split at h
          · next hfits =>
              obtain ⟨k', hk', rfl⟩ := Option.map_eq_some_iff.mp h
              obtain ⟨x, y, rfl, rfl, hreaches⟩ := ih hk'
              have hn : n + 1 = width c + (n + 1 - width c) := by omega
              exact ⟨c :: x, y, rfl, rfl, hn ▸ hreaches.cons⟩
          · next hover =>
              have hle := width_le c
              refine ⟨[], c :: t, rfl, Option.some.inj h, Or.inr ⟨c, t, rfl, ?_, ?_⟩⟩
              · omega
              · rw [units]
                omega

/-- Walking the lines to a place ends at the line that the place is in. -/
theorem Split.positionIn?_eq (h : Split (before ++ l :: behind)) (hbody : l.body = x ++ y) (n : Nat) :
    positionIn? n (before ++ l :: behind) (Text.size (textOf before ++ x)) =
      some ⟨n + before.length, units x⟩ := by
  -- induction on the lines before the place: the walk passes each of them, since the place is not inside of it
  induction before generalizing n with
  | nil =>
      have htext : l.text = x ++ (y ++ l.ending) := by
        rw [Line.text, hbody, List.append_assoc]
      have hinside : (Text.size x < l.size || (behind.isEmpty && Text.size x == l.size)) = true := by
        rw [Line.size, htext, size_append, size_append]
        cases behind with
        | nil =>
            rw [List.isEmpty_nil, Bool.true_and, Bool.or_eq_true, decide_eq_true_iff, beq_iff_eq]
            omega
        | cons next behind =>
            have hending : 0 < Text.size l.ending := by
              refine size_pos_of_ne_nil ?_
              rcases h.ending (List.cons_ne_nil _ _) with hending | ⟨c, -, hending, -⟩
              · rw [hending]
                exact List.cons_ne_nil _ _
              · rw [hending]
                exact List.cons_ne_nil _ _
            rw [Bool.or_eq_true, decide_eq_true_iff]
            omega
      rw [textOf_nil, List.nil_append, List.nil_append, positionIn?, if_pos hinside, htext, cut_append]
      rfl
  | cons first before ih =>
      have hne := List.append_ne_nil_of_right_ne_nil before (List.cons_ne_nil l behind)
      have hsize : Text.size (textOf (first :: before) ++ x) =
          first.size + Text.size (textOf before ++ x) := by
        rw [textOf_cons, List.append_assoc, size_append]
        rfl
      have hbeyond : (Text.size (textOf (first :: before) ++ x) < first.size ||
          ((before ++ l :: behind).isEmpty &&
            Text.size (textOf (first :: before) ++ x) == first.size)) ≠ true := by
        rw [List.isEmpty_eq_false_iff.mpr hne, Bool.false_and, Bool.or_false, ne_eq, decide_eq_true_iff,
          hsize]
        omega
      rw [List.cons_append, positionIn?, if_neg hbeyond, hsize, Nat.add_sub_cancel_left, ih (h.tail hne),
        List.length_cons, Nat.add_right_comm n 1]
      rfl

theorem lineStart?_eq (hlines : b.lines = before ++ l :: behind) :
    b.lineStart? before.length = some (Text.size (textOf before)) := by
  have hlt : before.length < b.lineCount := by
    rw [lineCount, hlines, List.length_append, List.length_cons]
    omega
  rw [lineStart?, if_pos hlt, hlines, List.take_left]

theorem lineText?_eq (hlines : b.lines = before ++ l :: behind) :
    b.lineText? before.length = some l.body := by
  rw [lineText?, hlines, List.getElem?_append_right (Nat.le_refl _), Nat.sub_self]
  rfl

/-- The offset of a position in a line. -/
theorem index?_eq {n : Nat} (hlines : b.lines = before ++ l :: behind) (hbody : l.body = x ++ y)
    (hn : Reaches n x y) : b.index? ⟨before.length, n⟩ = some (Text.size (textOf before ++ x)) := by
  rw [index?, lineStart?_eq hlines, lineText?_eq hlines, hbody]
  show (bytesFor? n (x ++ y)).bind _ = _
  rw [hn.bytesFor?_eq, size_append]
  rfl

/-- A position that has an offset is in a line, in front of its break. -/
theorem exists_line_of_index? {p : Position} (h : b.index? p = some i) :
    ∃ before l behind x y, b.lines = before ++ l :: behind ∧ l.body = x ++ y ∧
      i = Text.size (textOf before ++ x) ∧ p.line = before.length ∧ Reaches p.units x y := by
  obtain ⟨start, hstart, hline⟩ := Option.bind_eq_some_iff.mp h
  obtain ⟨body, hbody, hunits⟩ := Option.bind_eq_some_iff.mp hline
  obtain ⟨inside, hinside, hindex⟩ := Option.bind_eq_some_iff.mp hunits
  obtain ⟨l, hl, rfl⟩ := Option.map_eq_some_iff.mp hbody
  obtain ⟨x, y, hxy, hsize, hreaches⟩ := bytesFor?_eq_some hinside
  have hlt : p.line < b.lines.length := (List.getElem?_eq_some_iff.mp hl).1
  refine ⟨_, l, _, x, y, append_cons_of_getElem? hl, hxy, ?_, ?_, hreaches⟩
  · rw [lineStart?, if_pos (show p.line < b.lineCount from hlt)] at hstart
    rw [← Option.some.inj hindex, ← Option.some.inj hstart, size_append, hsize]
  · rw [List.length_take, Nat.min_eq_left (Nat.le_of_lt hlt)]

/-! ## Places -/

theorem isPlace_of_index? {p : Position} (h : b.index? p = some i) : b.IsPlace i := by
  obtain ⟨before, l, behind, x, y, hlines, hbody, rfl, -⟩ := exists_line_of_index? h
  have hsplit := split_linesOf b.text
  rw [show linesOf b.text = before ++ l :: behind from hlines] at hsplit
  refine ⟨textOf before ++ x, y ++ l.ending ++ textOf behind, ?_, rfl, hsplit.not_partsBreak hbody⟩
  rw [← text_lines, hlines, textOf_append, textOf_cons, Line.text, hbody]
  simp only [List.append_assoc]

theorem IsPlace.le_size (h : b.IsPlace i) : i ≤ b.size := by
  obtain ⟨u, v, htext, rfl, -⟩ := h
  rw [Buffer.size, htext, size_append]
  exact Nat.le_add_right _ _

/-- Each place has a position, which leads back to it. -/
theorem IsPlace.exists_position? (h : b.IsPlace i) :
    ∃ p, b.position? i = some p ∧ b.index? p = some i := by
  obtain ⟨u, v, htext, rfl, hwhole⟩ := h
  have hsplit := split_linesOf b.text
  obtain ⟨before, l, behind, x, y, hlines, hbody, rfl⟩ :=
    hsplit.exists_line ((text_lines b).trans htext) hwhole
  rw [hlines] at hsplit
  refine ⟨⟨before.length, units x⟩, ?_, index?_eq hlines hbody (Or.inl rfl)⟩
  have hposition := hsplit.positionIn?_eq hbody 0
  rw [position?, show b.lines = before ++ l :: behind from hlines, hposition, Nat.zero_add]

theorem span?_eq_some_iff {r : Range} : b.span? r = some (i, j) ↔
    b.index? r.start = some i ∧ b.index? r.stop = some j ∧ i ≤ j := by
  constructor
  · intro h
    obtain ⟨start, hstart, h⟩ := Option.bind_eq_some_iff.mp h
    obtain ⟨stop, hstop, h⟩ := Option.bind_eq_some_iff.mp h
    split at h
    · next hle =>
        obtain ⟨rfl, rfl⟩ := Prod.mk.inj (Option.some.inj h)
        exact ⟨hstart, hstop, hle⟩
    · exact nomatch h
  · rintro ⟨hstart, hstop, hle⟩
    rw [span?, hstart, hstop]
    exact if_pos hle

theorem isPlace_of_span? {r : Range} (h : b.span? r = some (i, j)) :
    b.IsPlace i ∧ b.IsPlace j ∧ i ≤ j := by
  obtain ⟨hstart, hstop, hle⟩ := span?_eq_some_iff.mp h
  exact ⟨isPlace_of_index? hstart, isPlace_of_index? hstop, hle⟩

/-- The range between two places spans them. -/
theorem IsPlace.exists_range? (hi : b.IsPlace i) (hj : b.IsPlace j) (hle : i ≤ j) :
    ∃ r, b.range? i j = some r ∧ b.span? r = some (i, j) := by
  obtain ⟨start, hstart, hi⟩ := hi.exists_position?
  obtain ⟨stop, hstop, hj⟩ := hj.exists_position?
  refine ⟨⟨start, stop⟩, ?_, ?_⟩
  · rw [range?, hstart, hstop]
    rfl
  · exact span?_eq_some_iff.mpr ⟨hi, hj, hle⟩

/-- Two places of a buffer part its text in three. -/
theorem IsPlace.exists_parts (hi : b.IsPlace i) (hj : b.IsPlace j) (hle : i ≤ j) :
    ∃ u v w, b.text = u ++ v ++ w ∧ Text.size u = i ∧ Text.size (u ++ v) = j ∧
      ¬ PartsBreak u (v ++ w) ∧ ¬ PartsBreak (u ++ v) w := by
  obtain ⟨u, w, htext, rfl, hstart⟩ := hi
  obtain ⟨u', w', htext', rfl, hstop⟩ := hj
  obtain ⟨v, rfl, rfl⟩ := exists_between_of_size_le (htext.symm.trans htext') hle
  exact ⟨u, v, w', htext', rfl, rfl, hstart, hstop⟩

/-- The text in a range that spans the middle of three parts. -/
theorem textIn?_eq {r : Range} {w : Text} (htext : b.text = u ++ v ++ w)
    (hspan : b.span? r = some (Text.size u, Text.size (u ++ v))) : b.textIn? r = some v := by
  rw [textIn?, hspan, htext, size_append]
  exact slice?_append u v w

end Buffer

end RazorLang
