import Mathlib.Data.List.TakeWhile
import RazorLang.Proofs.Editor.Buffer

/-!
# The line index of a source

A source looks up lines and places in the offsets at which its lines start, a list that is made once. Main
statement: `Source.lineIndex_agrees` — what is looked up is what reading the text from its start comes upon:
the place of each offset between characters that is not inside of a `\r\n`, the lines and where they start.
Offsets past the end stand for the end, and each line starts behind the one before it.

The route: a text is in lines (`IsLines`), and where these start is what the source has for its line starts
(`exists_lines`). So a line of the source is cut out of the text between two starts, with its break, and this
is what is taken off (`dropEndWhile_text`).
-/

namespace RazorLang

open Text Buffer

namespace Source

/-- The lines of a source text: none has a break in it, and each but the last one ends with a whole break. -/
inductive IsLines : List Line → Prop where
  | last {body : Text} (plain : ∀ c ∈ body, isLineBreak c = false) : IsLines [⟨body, []⟩]
  | cons {l : Line} {rest : List Line} (plain : ∀ c ∈ l.body, isLineBreak c = false)
      (ending : l.ending = ['\r', '\n'] ∨
        ∃ c, isLineBreak c = true ∧ l.ending = [c] ∧ ¬ PartsBreak [c] (textOf rest))
      (tail : IsLines rest) : IsLines (l :: rest)

/-- The offsets at which lines start, the first of them at `n`. -/
def startsFrom (n : Nat) : List Line → List Nat
  | [] => []
  | l :: ls => n :: startsFrom (n + l.size) ls

variable {d : Source} {ls before behind : List Line} {l : Line} {n i : Nat}

/-! ## Lines and where they start -/

theorem IsLines.extend {c : Char} (h : IsLines ls) (hc : isLineBreak c = false) :
    IsLines (Buffer.extend c ls) := by
  cases h with
  | last plain => exact .last (List.forall_mem_cons.mpr ⟨hc, plain⟩)
  | cons plain ending tail => exact .cons (List.forall_mem_cons.mpr ⟨hc, plain⟩) ending tail

/-- The starts of lines are counted from the start of the first line, also if that gets longer. -/
theorem startsFrom_extend {c : Char} {t : List Nat} (h : startsFrom (n + c.utf8Size) ls = (n + c.utf8Size) :: t) :
    startsFrom n (Buffer.extend c ls) = n :: t := by
  cases ls with
  | nil => exact nomatch h
  | cons l ls =>
      obtain ⟨-, rfl⟩ := List.cons.inj h
      show n :: startsFrom (n + Text.size ((c :: l.body) ++ l.ending)) ls = _
      rw [List.cons_append, size_cons, ← Nat.add_assoc]
      rfl

/-- A text is in lines, which start at its start and behind its breaks. -/
theorem exists_lines (n : Nat) (t : Text) :
    ∃ ls, IsLines ls ∧ textOf ls = t ∧ startsFrom n ls = n :: breaksFrom n t := by
  induction n, t using breaksFrom.induct with
  | case1 n => exact ⟨[⟨[], []⟩], .last (List.forall_mem_nil _), rfl, rfl⟩
  | case2 n t ih =>
      obtain ⟨ls, hls, rfl, hstarts⟩ := ih
      refine ⟨⟨[], ['\r', '\n']⟩ :: ls, .cons (List.forall_mem_nil _) (Or.inl rfl) hls, rfl, ?_⟩
      rw [breaksFrom_break, ← hstarts]
      rfl
  | case3 n c t hnot hbreak ih =>
      have hwhole := not_break_of_forall hnot
      obtain ⟨ls, hls, rfl, hstarts⟩ := ih
      refine ⟨⟨[], [c]⟩ :: ls, .cons (List.forall_mem_nil _) (Or.inr ⟨c, hbreak, rfl, hwhole⟩) hls, rfl, ?_⟩
      rw [breaksFrom_cons hwhole, if_pos hbreak, ← hstarts, startsFrom, Line.size, Line.text, List.nil_append,
        size_cons, utf8Size_of_isLineBreak hbreak, size_nil]
  | case4 n c t hnot hother ih =>
      obtain ⟨ls, hls, rfl, hstarts⟩ := ih
      refine ⟨Buffer.extend c ls, hls.extend (Bool.eq_false_iff.mpr hother), textOf_extend c ls, ?_⟩
      rw [breaksFrom_cons (not_break_of_forall hnot), if_neg hother]
      exact startsFrom_extend hstarts

theorem getElem?_startsFrom (n : Nat) (ls : List Line) (i : Nat) :
    (startsFrom n ls)[i]? = (ls[i]?).map fun _ => n + Text.size (textOf (ls.take i)) := by
  induction ls generalizing n i with
  | nil => rfl
  | cons l ls ih =>
      cases i with
      | zero => rfl
      | succ i =>
          rw [startsFrom, List.getElem?_cons_succ, List.getElem?_cons_succ, ih, List.take_succ_cons,
            textOf_cons, size_append, Nat.add_assoc]
          rfl

/-- Each break is behind the one before it. -/
theorem pairwise_breaksFrom (n : Nat) (t : Text) : (breaksFrom n t).Pairwise (· < ·) := by
  induction n, t using breaksFrom.induct with
  | case1 n => exact .nil
  | case2 n t ih =>
      rw [breaksFrom_break]
      exact .cons (fun b hb => (mem_breaksFrom hb).1) ih
  | case3 n c t hnot hbreak ih =>
      rw [breaksFrom_cons (not_break_of_forall hnot), if_pos hbreak]
      exact .cons (fun b hb => (mem_breaksFrom hb).1) ih
  | case4 n c t hnot hother ih =>
      rw [breaksFrom_cons (not_break_of_forall hnot), if_neg hother]
      exact ih

/-- Each line starts behind the one before it. -/
theorem pairwise_lineStarts (d : Source) : d.lineStarts.Pairwise (· < ·) :=
  .cons (fun _ hb => (mem_breaksFrom hb).1) (pairwise_breaksFrom 0 d.text)

/-! ## Looking up -/

theorem IsLines.plain (h : IsLines (l :: ls)) : ∀ c ∈ l.body, isLineBreak c = false := by
  cases h with
  | last plain => exact plain
  | cons plain ending tail => exact plain

theorem IsLines.isLineBreak_ending (h : IsLines (l :: ls)) : ∀ c ∈ l.ending, isLineBreak c = true := by
  intro c hc
  cases h with
  | last plain => exact nomatch hc
  | cons plain ending tail =>
      rcases ending with hending | ⟨d, hd, hending, -⟩
      · rw [hending] at hc
        have hc : c = '\r' ∨ c = '\n' := by simpa using hc
        rcases hc with rfl | rfl <;> rfl
      · rw [hending] at hc
        rw [List.mem_singleton.mp hc]
        exact hd

/-- The break at the end of a line is taken off, and nothing else. -/
theorem dropEndWhile_text (h : IsLines (l :: ls)) : dropEndWhile isLineBreak l.text = l.body := by
  have hending : ∀ c ∈ l.ending.reverse, isLineBreak c = true := fun c hc =>
    h.isLineBreak_ending c (List.mem_reverse.mp hc)
  rw [dropEndWhile, Line.text, List.reverse_append, List.dropWhile_append_of_pos hending]
  cases hbody : l.body.reverse with
  | nil => exact (List.reverse_eq_nil_iff.mp hbody).symm
  | cons c body =>
      have hc : c ∈ l.body := List.mem_reverse.mp (hbody ▸ List.mem_cons_self)
      rw [List.dropWhile_cons_of_neg (Bool.eq_false_iff.mp (h.plain c hc)), ← hbody, List.reverse_reverse]

theorem IsLines.of_append (h : IsLines (before ++ l :: behind)) : IsLines (l :: behind) := by
  induction before with
  | nil => exact h
  | cons first before ih =>
      refine ih ?_
      cases hlines : before ++ l :: behind with
      | nil => exact absurd hlines (List.append_ne_nil_of_right_ne_nil before (List.cons_ne_nil l behind))
      | cons next rest =>
          rw [List.cons_append, hlines] at h
          cases h with
          | cons plain ending tail => exact tail

theorem lineStart?_eq (hstarts : d.lineStarts = startsFrom 0 ls) (i : Nat) :
    d.lineStart? i = (ls[i]?).map fun _ => Text.size (textOf (ls.take i)) := by
  rw [lineStart?, hstarts, getElem?_startsFrom]
  simp only [Nat.zero_add]

theorem textOf_take_add_one (h : ls[i]? = some l) :
    textOf (ls.take (i + 1)) = textOf (ls.take i) ++ l.text := by
  rw [List.take_add_one, h, textOf_append]
  simp

/-- A line, with its break, is what stands between its start and the end of the lines up to it. -/
theorem slice?_line (h : ls[i]? = some l) :
    Text.slice? (Text.size (textOf (ls.take i))) (Text.size (textOf (ls.take (i + 1)))) (textOf ls) =
      some l.text := by
  have htext := congrArg textOf (append_cons_of_getElem? h)
  rw [textOf_append, textOf_cons, ← List.append_assoc] at htext
  rw [htext, textOf_take_add_one h, size_append]
  exact slice?_append _ _ _

/-- The text of a line is what stands between its start and that of the next line, or the end, without the
    break there. -/
theorem lineText?_eq (hls : IsLines ls) (htext : textOf ls = d.text)
    (hstarts : d.lineStarts = startsFrom 0 ls) (i : Nat) : d.lineText? i = (ls[i]?).map (·.body) := by
  rw [lineText?, lineStart?_eq hstarts, lineStart?_eq hstarts]
  cases hl : ls[i]? with
  | none => rfl
  | some l =>
      have hstop : ((ls[i + 1]?).map fun _ => Text.size (textOf (ls.take (i + 1)))).getD d.size =
          Text.size (textOf (ls.take (i + 1))) := by
        cases hnext : ls[i + 1]? with
        | some next => rfl
        | none =>
            rw [List.take_of_length_le (List.getElem?_eq_none_iff.mp hnext), htext]
            rfl
      rw [append_cons_of_getElem? hl] at hls
      show (Text.slice? _ _ d.text).bind (fun raw => some (dropEndWhile isLineBreak raw)) = some l.body
      rw [hstop, ← htext, slice?_line hl, Option.bind_some, dropEndWhile_text hls.of_append]

/-- The start that is looked up for an offset is the last one that is not behind it. -/
theorem locate_last (more : List Nat) (n : Nat) :
    ∃ start, (0 :: more)[(locate (0 :: more) n).line]? = some start ∧
      start + (locate (0 :: more) n).column = n ∧
      ∀ next, (0 :: more)[(locate (0 :: more) n).line + 1]? = some next → n < next := by
  have hparts : (0 :: more).takeWhile (· ≤ n) ++ (0 :: more).dropWhile (· ≤ n) = 0 :: more :=
    List.takeWhile_append_dropWhile
  have hle : ∀ start ∈ (0 :: more).takeWhile (· ≤ n), start ≤ n := by
    intro start hstart
    simpa using List.mem_takeWhile_imp hstart
  have hbehind := List.head?_dropWhile_not (fun start => decide (start ≤ n)) (0 :: more)
  have hne : (0 :: more).takeWhile (· ≤ n) ≠ [] := by simp
  simp only [locate]
  generalize (0 :: more).takeWhile (· ≤ n) = upTo at hparts hle hne ⊢
  generalize (0 :: more).dropWhile (· ≤ n) = later at hparts hbehind
  have hlength : upTo.length - 1 + 1 = upTo.length := Nat.succ_pred_eq_of_pos (List.length_pos_iff.mpr hne)
  refine ⟨upTo.getLast hne, ?_, ?_, ?_⟩
  · rw [← hparts, List.getElem?_append_left (by omega), ← List.getLast?_eq_getElem?,
      List.getLast?_eq_some_getLast hne]
  · rw [List.getLast?_eq_some_getLast hne]
    exact Nat.add_sub_cancel' (hle _ (List.getLast_mem hne))
  · intro next hnext
    rw [hlength, ← hparts, List.getElem?_append_right (Nat.le_refl _), Nat.sub_self,
      ← List.head?_eq_getElem?] at hnext
    rw [hnext] at hbehind
    exact Nat.lt_of_not_le (of_decide_eq_false hbehind)

/-- The line index of a source agrees with reading its text. The place of an offset between characters, but not
    inside of a `\r\n`, is where reading up to it leads; offsets past the end stand for the end; each line
    starts behind the one before it, and the line of an offset is the last one that does not start behind it.
    The lines of the source, each with its break, are its text, and they start where they stand in it. -/
theorem lineIndex_agrees (d : Source) :
    (∀ u v, d.text = u ++ v → ¬ PartsBreak u v → d.location (Text.size u) = Location.start.advance u) ∧
      (∀ i, d.size ≤ i → d.location i = Location.start.advance d.text) ∧
      d.lineStarts.Pairwise (· < ·) ∧
      (∀ i, ∃ start, d.lineStart? (d.location i).line = some start ∧
        start + (d.location i).column = min i d.size ∧
        ∀ next, d.lineStart? ((d.location i).line + 1) = some next → min i d.size < next) ∧
      ∃ ls, IsLines ls ∧ textOf ls = d.text ∧ (∀ i, d.lineText? i = (ls[i]?).map (·.body)) ∧
        ∀ i, d.lineStart? i = (ls[i]?).map fun _ => Text.size (textOf (ls.take i)) := by
  refine ⟨fun u v htext hwhole => location_of_append htext hwhole, ?_, pairwise_lineStarts d,
    fun i => locate_last (breaksFrom 0 d.text) (min i d.size), ?_⟩
  · intro i hi
    have hend : d.location d.size = Location.start.advance d.text :=
      location_of_append (List.append_nil d.text).symm (not_partsBreak_nil_right d.text)
    rw [← hend, location, location, Nat.min_eq_right hi, Nat.min_self]
  · obtain ⟨ls, hls, htext, hstarts⟩ := exists_lines 0 d.text
    have hstarts : d.lineStarts = startsFrom 0 ls := hstarts.symm
    exact ⟨ls, hls, htext, lineText?_eq hls htext hstarts, lineStart?_eq hstarts⟩

/-- Three kinds of breaks, one behind the other, and nothing behind the last one. -/
theorem lineIndex_agrees_breaks :
    let d := Source.anonymous "é\r\r\n\n"
    "é\r\r\n\n".toList = "é\r".toList ++ "\r\n\n".toList ∧ ¬ PartsBreak "é\r" "\r\n\n" ∧ d.size ≤ 9 ∧
      d.location 3 = ⟨3, 1, 0⟩ ∧ d.location 9 = ⟨6, 3, 0⟩ ∧ d.lineStarts = [0, 3, 5, 6] ∧
      ∃ ls, IsLines ls ∧ textOf ls = d.text := by
  intro d
  have hwhole : ¬ PartsBreak "é\r" "\r\n\n" := fun h => absurd h.2 (by decide)
  have hsize : d.size ≤ 9 := by decide
  obtain ⟨hplaces, hend, -, -, ls, hls, htext, -, -⟩ := lineIndex_agrees d
  refine ⟨by decide, hwhole, hsize, ?_, ?_, by decide, ls, hls, htext⟩
  · exact (hplaces "é\r" "\r\n\n" (by decide) hwhole).trans (by decide)
  · exact (hend 9 hsize).trans (by decide)

end Source

end RazorLang
