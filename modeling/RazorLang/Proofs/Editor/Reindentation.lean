import Mathlib.Data.List.DropRight
import RazorLang.Editor.Formatting
import RazorLang.Proofs.Editor.Edits
import RazorLang.Proofs.Engine
import RazorLang.Proofs.Text.Splitting

/-!
# Indenting lines

Lines of a document are indented as the C# around them is. Main statement: `Formatting.indentation_reindents` —
the edits that come of what a formatter answers can be made; they change nothing but the white space in front of
lines that were asked for and are not blank; in front of each of these there is then white space of as many
columns as were found for the line, and finding the same columns again gives no edits.

The route: the white space that is written for some columns measures that many (`Indentation.measure_margin`), in
front of anything that is not white space. The columns that are found are in the order of their lines, each line
once (`Formatting.columns_settle`), so their edits follow one another through the lines of the document, and the
text after them is that of the lines with their new margins (`Formatting.leaves_reindent`).
-/

namespace RazorLang

open Text Buffer

/-! ## Margins -/

namespace Indentation

variable {s : Style} {n column k : Nat} {c : Char} {t : Text}

theorem foldl_advance_blanks (n column k : Nat) :
    (List.replicate k ' ').foldl (advance n) column = column + k := by
  induction k generalizing column with
  | zero => rfl
  | succ k ih =>
      rw [List.replicate_succ, List.foldl_cons, ih, show advance n column ' ' = column + 1 from rfl]
      omega

/-- From one tab stop, tabs lead to the next ones. -/
theorem foldl_advance_tabs (hstop : n ∣ column) (k : Nat) :
    (List.replicate k '\t').foldl (advance n) column = column + k * n := by
  induction k generalizing column with
  | zero => simp
  | succ k ih =>
      have hnext : advance n column '\t' = column + n := by
        show column - column % n + n = column + n
        rw [Nat.mod_eq_zero_of_dvd hstop, Nat.sub_zero]
      rw [List.replicate_succ, List.foldl_cons, hnext, ih (Nat.dvd_add hstop (Nat.dvd_refl n)), Nat.succ_mul]
      omega

theorem Style.mem_margin (h : c ∈ s.margin k) : c = ' ' ∨ c = '\t' := by
  rw [Style.margin] at h
  split at h
  · exact Or.inl (List.eq_of_mem_replicate h)
  · rcases List.mem_append.mp h with h | h
    · exact Or.inr (List.eq_of_mem_replicate h)
    · exact Or.inl (List.eq_of_mem_replicate h)

theorem Style.isSpace_of_mem_margin (h : c ∈ s.margin k) : isSpace c = true := by
  rcases Style.mem_margin h with rfl | rfl <;> rfl

theorem foldl_advance_margin (s : Style) (k : Nat) :
    (s.margin k).foldl (advance s.tabSize) 0 = k := by
  rw [Style.margin]
  split
  · rw [foldl_advance_blanks, Nat.zero_add]
  · rw [List.foldl_append, foldl_advance_tabs (Nat.dvd_zero _), foldl_advance_blanks, Nat.zero_add,
      Nat.mul_comm]
    exact Nat.div_add_mod k s.tabSize

/-- The white space for some columns measures that many, in front of anything that is not white space. -/
theorem measure_margin (hs : 0 < s.tabSize) (ht : ∀ c ∈ t.head?, isSpace c = false) :
    measure (s.margin k ++ t) s.tabSize = k := by
  have hmargin : (s.margin k ++ t).takeWhile (fun c => c == ' ' || c == '\t') = s.margin k := by
    refine takeWhile_append_of_head ?_ ?_
    · intro c hc
      rcases Style.mem_margin hc with rfl | rfl <;> rfl
    · intro c hc
      have hspace := ht c hc
      rw [Bool.or_eq_false_iff, beq_eq_false_iff_ne, beq_eq_false_iff_ne]
      constructor <;> rintro rfl <;> exact nomatch hspace
  rw [measure, hmargin, if_neg (Nat.ne_of_gt hs), foldl_advance_margin]

end Indentation

namespace Formatting

open Indentation

/-! ## Columns -/

section Columns

variable {cs : Columns} {n k : Nat}

/-- Columns in the order of their lines, each line once. -/
def Columns.IsOrdered (cs : Columns) : Prop := cs.Pairwise fun p q => p.1 < q.1

theorem Columns.mem_note (n k : Nat) (cs : Columns) {m : Nat} :
    m ∈ (Columns.note n k cs).map Prod.fst ↔ m = n ∨ m ∈ cs.map Prod.fst := by
  induction cs with
  | nil => simp [Columns.note]
  | cons p cs ih =>
      rw [Columns.note]
      split
      · simp
      · split
        · next heq => simp [heq]
        · rw [List.map_cons, List.mem_cons, ih, List.map_cons, List.mem_cons]
          exact or_left_comm

theorem Columns.IsOrdered.note (h : cs.IsOrdered) (n k : Nat) : (Columns.note n k cs).IsOrdered := by
  induction cs with
  | nil => exact List.pairwise_singleton _ _
  | cons p cs ih =>
      obtain ⟨hall, htail⟩ := List.pairwise_cons.mp h
      rw [Columns.note]
      split
      · next hlt =>
          refine List.pairwise_cons.mpr ⟨fun q hq => ?_, h⟩
          rcases List.mem_cons.mp hq with rfl | hq
          · exact hlt
          · exact Nat.lt_trans hlt (hall q hq)
      · split
        · next heq => exact List.pairwise_cons.mpr ⟨fun q hq => heq ▸ hall q hq, htail⟩
        · next hge hne =>
            refine List.pairwise_cons.mpr ⟨fun q hq => ?_, ih htail⟩
            rcases (Columns.mem_note n k cs).mp (List.mem_map_of_mem hq) with hn | hmem
            · rw [hn]
              omega
            · obtain ⟨q', hq', heq⟩ := List.mem_map.mp hmem
              rw [← heq]
              exact hall q' hq'

theorem Columns.ofList_spec (pairs : List (Nat × Nat)) :
    (Columns.ofList pairs).IsOrdered ∧ ∀ n, n ∈ (Columns.ofList pairs).map Prod.fst ↔ n ∈ pairs.map Prod.fst := by
  suffices h : ∀ cs : Columns, cs.IsOrdered →
      (pairs.foldl (fun columns p => Columns.note p.1 p.2 columns) cs).IsOrdered ∧
        ∀ n, n ∈ (pairs.foldl (fun columns p => Columns.note p.1 p.2 columns) cs).map Prod.fst ↔
          n ∈ cs.map Prod.fst ∨ n ∈ pairs.map Prod.fst by
    obtain ⟨hordered, hmem⟩ := h [] List.Pairwise.nil
    exact ⟨hordered, fun n => (hmem n).trans (by simp)⟩
  induction pairs with
  | nil => exact fun cs hcs => ⟨hcs, fun n => by simp⟩
  | cons p pairs ih =>
      intro cs hcs
      obtain ⟨hordered, hmem⟩ := ih _ (hcs.note p.1 p.2)
      refine ⟨hordered, fun n => (hmem n).trans ?_⟩
      rw [Columns.mem_note, List.map_cons, List.mem_cons, or_assoc, or_left_comm]

theorem Columns.IsOrdered.lookup_eq (h : cs.IsOrdered) (hmem : (n, k) ∈ cs) : cs.lookup n = some k := by
  induction cs with
  | nil => exact nomatch hmem
  | cons p cs ih =>
      obtain ⟨hall, htail⟩ := List.pairwise_cons.mp h
      rcases List.mem_cons.mp hmem with rfl | hmem
      · exact List.lookup_cons_self
      · have hne : (n == p.1) = false := beq_eq_false_iff_ne.mpr (Nat.ne_of_gt (hall _ hmem))
        rw [show p = (p.1, p.2) from rfl, List.lookup_cons, hne]
        exact ih htail hmem

/-- Columns from a line on are for later lines if the first of them are for another line. -/
theorem Columns.IsOrdered.later {line : Nat} (h : Columns.IsOrdered ((line, k) :: cs))
    (hfrom : ∀ p ∈ (line, k) :: cs, n ≤ p.1) (hne : ¬ line = n) : ∀ p ∈ (line, k) :: cs, n + 1 ≤ p.1 := by
  intro p hp
  have hge : n ≤ line := hfrom (line, k) List.mem_cons_self
  rcases List.mem_cons.mp hp with rfl | hp
  · exact Nat.lt_of_le_of_ne hge (Ne.symm hne)
  · exact Nat.lt_of_le_of_lt hge ((List.pairwise_cons.mp h).1 p hp)

end Columns

theorem settle_map {Question Answer Outcome Result : Type} (x : Consultation Question Answer Outcome)
    (f : Outcome → Result) (formatter : Question → Option Answer) :
    (x.map f).settle formatter = f (x.settle formatter) := by
  cases x <;> rfl

/-- The columns that are found are those of the lines that were asked for. -/
theorem columns_settle {c : Compilation} {lines : List Nat} {formatter : List Position → Option (List Nat)}
    {found : Columns} (h : (columns c lines).settle formatter = some found) :
    found.IsOrdered ∧ ∀ n, n ∈ found.map Prod.fst ↔ n ∈ lines := by
  suffices hpairs : ∃ pairs, found = Columns.ofList pairs ∧ pairs.map Prod.fst = lines by
    obtain ⟨pairs, rfl, rfl⟩ := hpairs
    exact Columns.ofList_spec pairs
  rw [columns] at h
  split at h
  · refine ⟨_, (Option.some.inj h).symm, ?_⟩
    rw [List.map_map]
    exact List.map_id lines
  · dsimp only at h
    split at h
    · exact nomatch h
    · obtain ⟨answer, -, h⟩ := Option.bind_eq_some_iff.mp h
      split at h
      · refine ⟨_, (Option.some.inj h).symm, ?_⟩
        rw [List.map_map, List.map_map]
        refine (List.map_congr_left fun line _ => ?_).trans (List.map_id lines)
        dsimp only [Function.comp]
        split <;> rfl
      · exact nomatch h

/-! ## Lines with new margins -/

variable {s : Style} {b b' : Buffer} {cs : Columns} {ls before : List Line} {l : Line} {n k : Nat}

/-- A line with white space of some columns in front of it, unless it is blank. -/
def reindented (s : Style) (k : Nat) (l : Line) : Line :=
  if isBlank l.body then l else ⟨s.margin k ++ trimStart l.body, l.ending⟩

/-- Lines, the first of which has a number, with the columns that there are for them. -/
def reindent (s : Style) : Nat → Columns → List Line → List Line
  | _, _, [] => []
  | _, [], ls => ls
  | n, (line, k) :: cs, l :: ls =>
    if line = n then reindented s k l :: reindent s (n + 1) cs ls
    else l :: reindent s (n + 1) ((line, k) :: cs) ls

theorem head?_trimStart (t : Text) : ∀ c ∈ (trimStart t).head?, isSpace c = false := by
  intro c hc
  have hhead := List.head?_dropWhile_not isSpace t
  rw [trimStart] at hc
  rw [hc] at hhead
  exact hhead

theorem takeWhile_append_trimStart (t : Text) : t.takeWhile isSpace ++ trimStart t = t :=
  List.takeWhile_append_dropWhile

/-- The edit of a line is for its white space, unless nothing is to be changed. -/
theorem marginEdit?_eq (hl : b.lineText? n = some l.body) :
    (marginEdit? b s n k = none ∧ reindented s k l = l) ∨
      (marginEdit? b s n k = some ⟨⟨⟨n, 0⟩, ⟨n, units (l.body.takeWhile isSpace)⟩⟩, s.margin k⟩ ∧
        reindented s k l = ⟨s.margin k ++ trimStart l.body, l.ending⟩) := by
  rw [marginEdit?, hl, reindented]
  cases hblank : isBlank l.body with
  | true => exact Or.inl ⟨by simp [hblank], rfl⟩
  | false =>
      by_cases hsame : l.body.takeWhile isSpace = s.margin k
      · refine Or.inl ⟨by simp [hblank, hsame], ?_⟩
        rw [if_neg Bool.false_ne_true, ← hsame, takeWhile_append_trimStart]
      · exact Or.inr ⟨by simp [hblank, hsame], by simp⟩

theorem marginEdit?_eq_none_of_lineText? (h : b.lineText? n = none) : marginEdit? b s n k = none := by
  rw [marginEdit?, h]
  rfl

theorem marginEdits_cons_none (h : marginEdit? b s n k = none) :
    marginEdits b s ((n, k) :: cs) = marginEdits b s cs := List.filterMap_cons_none h

theorem marginEdits_cons_some {e : Edit} (h : marginEdit? b s n k = some e) :
    marginEdits b s ((n, k) :: cs) = e :: marginEdits b s cs := List.filterMap_cons_some h

/-- What the edit of a line replaces: the white space in front of it. -/
theorem span?_margin (hlines : b.lines = before ++ l :: ls) :
    b.span? ⟨⟨before.length, 0⟩, ⟨before.length, units (l.body.takeWhile isSpace)⟩⟩ =
      some (Text.size (textOf before), Text.size (textOf before ++ l.body.takeWhile isSpace)) := by
  refine span?_eq_some_iff.mpr ⟨?_, ?_, ?_⟩
  · have hstart := index?_eq (x := []) (y := l.body) hlines rfl (Or.inl rfl)
    rwa [List.append_nil] at hstart
  · exact index?_eq hlines (takeWhile_append_trimStart l.body).symm (Or.inl rfl)
  · rw [size_append]
    exact Nat.le_add_right _ _

/-- The white space in front of a line gives way to other white space, and the line goes on behind it. -/
theorem replaces_margin {x y y' : Text} {at_ : Nat} {ss : List Splice}
    (hx : Text.size (textOf before) = at_ + Text.size x)
    (htail : Replaces (Text.size (textOf before ++ l.body.takeWhile isSpace))
      (trimStart l.body ++ l.ending ++ y) ss (trimStart l.body ++ l.ending ++ y')) (margin : Text) :
    Replaces at_ (x ++ (l.text ++ y))
      (⟨Text.size (textOf before), Text.size (textOf before ++ l.body.takeWhile isSpace), margin⟩ :: ss)
      (x ++ (Line.text ⟨margin ++ trimStart l.body, l.ending⟩ ++ y')) := by
  have htext : x ++ (l.text ++ y) =
      x ++ l.body.takeWhile isSpace ++ (trimStart l.body ++ l.ending ++ y) := by
    rw [Line.text]
    conv_lhs => rw [← takeWhile_append_trimStart l.body]
    simp only [List.append_assoc]
  have hresult : x ++ (Line.text ⟨margin ++ trimStart l.body, l.ending⟩ ++ y') =
      x ++ margin ++ (trimStart l.body ++ l.ending ++ y') := by
    rw [Line.text]
    simp only [List.append_assoc]
  rw [htext, hresult]
  exact .cons hx (size_append _ _) htail

/-- Behind a text that has been read from an offset on, the edits for columns make other lines of the next ones. -/
def Leaves (b : Buffer) (s : Style) (at_ : Nat) (x : Text) (cs : Columns) (ls ls' : List Line) : Prop :=
  ∃ given, b.Resolves (marginEdits b s cs) given ∧ Replaces at_ (x ++ textOf ls) given (x ++ textOf ls')

section Leaves

variable {x : Text} {at_ : Nat} {ls' : List Line}

/-- A line that stays is read on over. -/
theorem Leaves.keep (h : Leaves b s at_ (x ++ l.text) cs ls ls') : Leaves b s at_ x cs (l :: ls) (l :: ls') := by
  obtain ⟨given, hgiven, hreplaces⟩ := h
  refine ⟨given, hgiven, ?_⟩
  rw [textOf_cons, textOf_cons, ← List.append_assoc, ← List.append_assoc]
  exact hreplaces

/-- A line with columns, if the lines behind it are made wherever the text up to them has been read from. -/
theorem Leaves.reindented (hlines : b.lines = before ++ l :: ls) (hn : before.length = n)
    (hx : Text.size (textOf before) = at_ + Text.size x)
    (hrest : ∀ {at_ x}, Text.size (textOf before ++ l.text) = at_ + Text.size x → Leaves b s at_ x cs ls ls') :
    Leaves b s at_ x ((n, k) :: cs) (l :: ls) (reindented s k l :: ls') := by
  subst hn
  rcases marginEdit?_eq (s := s) (k := k) (lineText?_eq hlines) with ⟨hnone, hsame⟩ | ⟨hedit, hnew⟩
  · rw [Leaves, marginEdits_cons_none hnone, hsame]
    refine Leaves.keep (hrest ?_)
    rw [size_append, size_append, hx, Nat.add_assoc]
  · have hread : Text.size (textOf before ++ l.text) =
        Text.size (textOf before ++ l.body.takeWhile isSpace) + Text.size (trimStart l.body ++ l.ending) := by
      rw [← size_append, Line.text]
      conv_lhs => rw [← takeWhile_append_trimStart l.body]
      simp only [List.append_assoc]
    obtain ⟨given, hgiven, hreplaces⟩ := hrest hread
    rw [Leaves, marginEdits_cons_some hedit, hnew]
    exact ⟨_, .cons ⟨span?_margin hlines, rfl⟩ hgiven, replaces_margin hx hreplaces _⟩

theorem leaves_nil (hfrom : ∀ p ∈ cs, b.lines.length ≤ p.1) : Leaves b s at_ x cs [] [] := by
  have hnone : marginEdits b s cs = [] := by
    refine List.filterMap_eq_nil_iff.mpr fun p hp => marginEdit?_eq_none_of_lineText? ?_
    rw [lineText?, List.getElem?_eq_none (hfrom p hp)]
    rfl
  rw [Leaves, hnone]
  exact ⟨[], .nil, .nil _ _⟩

/-- The edits of lines follow one another through the lines from a number on. -/
theorem leaves_reindent (hcs : cs.IsOrdered) (hfrom : ∀ p ∈ cs, n ≤ p.1) (hlines : b.lines = before ++ ls)
    (hn : before.length = n) (hx : Text.size (textOf before) = at_ + Text.size x) :
    Leaves b s at_ x cs ls (reindent s n cs ls) := by
  induction ls generalizing x at_ cs before n with
  | nil =>
      rw [List.append_nil] at hlines
      rw [reindent]
      exact leaves_nil (hlines ▸ hn ▸ hfrom)
  | cons l ls ih =>
      have hlines' : b.lines = (before ++ [l]) ++ ls := by rw [hlines, List.append_assoc, List.singleton_append]
      have hlength : (before ++ [l]).length = n + 1 := by rw [List.length_append, hn]; rfl
      have hread : textOf (before ++ [l]) = textOf before ++ l.text := by simp
      cases cs with
      | nil => exact ⟨[], .nil, .nil _ _⟩
      | cons p cs =>
          obtain ⟨line, k⟩ := p
          rw [reindent]
          split
          · next heq =>
              subst heq
              obtain ⟨hall, htail⟩ := List.pairwise_cons.mp hcs
              exact .reindented hlines hn hx fun hx' => ih htail hall hlines' hlength (hread ▸ hx')
          · next hne =>
              refine .keep (ih hcs (hcs.later hfrom hne) hlines' hlength ?_)
              rw [hread, size_append, size_append, hx, Nat.add_assoc]

end Leaves

/-! ## The lines of the result -/

theorem reindented_of_isBlank (h : isBlank l.body = true) : reindented s k l = l := if_pos h

theorem reindented_of_not_isBlank (h : isBlank l.body = false) :
    reindented s k l = ⟨s.margin k ++ trimStart l.body, l.ending⟩ := if_neg (Bool.eq_false_iff.mp h)

theorem reindented_ending : (reindented s k l).ending = l.ending := by
  rw [reindented]
  split <;> rfl

/-- Behind the white space in front of a line, there is something unless it is blank. -/
theorem trimStart_ne_nil {t : Text} (h : isBlank t = false) : trimStart t ≠ [] := by
  intro hnil
  have hall := List.dropWhile_eq_nil_iff.mp hnil
  rw [isBlank, List.all_eq_true.mpr hall] at h
  exact nomatch h

theorem trimStart_margin_append (s : Style) (k : Nat) (t : Text) :
    trimStart (s.margin k ++ trimStart t) = trimStart t := by
  rw [trimStart, List.dropWhile_append_of_pos fun c hc => Style.isSpace_of_mem_margin hc]
  exact List.dropWhile_idempotent isSpace t

theorem isBreak_eq_false_of_reindented (h : ∀ c ∈ l.body, isBreak c = false) :
    ∀ c ∈ (reindented s k l).body, isBreak c = false := by
  intro c hc
  cases hblank : isBlank l.body with
  | true =>
      rw [reindented_of_isBlank hblank] at hc
      exact h c hc
  | false =>
      rw [reindented_of_not_isBlank hblank] at hc
      rcases List.mem_append.mp hc with hc | hc
      · rcases Style.mem_margin hc with rfl | rfl <;> rfl
      · exact h c ((List.dropWhile_suffix isSpace).subset hc)

/-- A text starts with the same half of a break if its first line is kept and no lines come behind the last. -/
theorem head?_textOf_cons (h : Split (l :: ls)) {ls' : List Line} (hls : ls = [] → ls' = [])
    (hhead : (textOf (l :: ls')).head? = some '\n') : (textOf (l :: ls)).head? = some '\n' := by
  rw [textOf_cons, List.head?_append] at hhead ⊢
  cases htext : l.text with
  | cons c t =>
      rw [htext] at hhead
      exact hhead
  | nil =>
      -- only the last line can be empty
      have hending : l.ending = [] := (List.append_eq_nil_iff.mp htext).2
      obtain rfl : ls = [] := by
        by_contra hne
        rcases h.ending hne with hbreak | ⟨c, -, hbreak, -⟩ <;> exact nomatch hending.symm.trans hbreak
      rw [htext, hls rfl] at hhead
      exact nomatch hhead

/-- No line starts with half of a break that it did not start with before. -/
theorem head?_textOf_reindent (h : Split ls) (hhead : (textOf (reindent s n cs ls)).head? = some '\n') :
    (textOf ls).head? = some '\n' := by
  cases ls with
  | nil => cases h
  | cons l ls =>
      have hnil (cs : Columns) (hls : ls = []) : reindent s (n + 1) cs ls = [] := by rw [hls, reindent]
      cases cs with
      | nil => exact hhead
      | cons p cs =>
          rw [reindent] at hhead
          split at hhead
          · cases hblank : isBlank l.body with
            | true =>
                rw [reindented_of_isBlank hblank] at hhead
                exact head?_textOf_cons h (hnil cs) hhead
            | false =>
                -- there is something in the line that is not a break, and white space in front of it
                have hplain := isBreak_eq_false_of_reindented (s := s) (k := p.2) h.plain
                rw [reindented_of_not_isBlank hblank] at hhead hplain
                have hne := List.append_ne_nil_of_right_ne_nil (s.margin p.2) (trimStart_ne_nil hblank)
                obtain ⟨c, body, hbody⟩ := List.exists_cons_of_ne_nil hne
                dsimp only at hplain
                rw [textOf_cons, Line.text, hbody] at hhead
                rw [hbody] at hplain
                obtain rfl : c = '\n' := Option.some.inj hhead
                exact absurd (hplain '\n' List.mem_cons_self) Bool.noConfusion
          · exact head?_textOf_cons h (hnil (p :: cs)) hhead

theorem split_reindent (h : Split ls) : Split (reindent s n cs ls) := by
  induction h generalizing n cs with
  | @last body plain =>
      cases cs with
      | nil => exact .last plain
      | cons p cs =>
          rw [reindent]
          split
          · have hplain := isBreak_eq_false_of_reindented (s := s) (k := p.2) (l := ⟨body, []⟩) plain
            have hending := reindented_ending (s := s) (k := p.2) (l := ⟨body, []⟩)
            cases hline : reindented s p.2 ⟨body, []⟩ with
            | mk body' ending =>
                rw [hline] at hplain hending
                rw [reindent, show ending = [] from hending]
                exact .last hplain
          · rw [reindent]
            exact .last plain
  | @cons l rest plain ending tail ih =>
      have hending (cs : Columns) : l.ending = ['\r', '\n'] ∨ ∃ c, isBreak c = true ∧ l.ending = [c] ∧
          ¬ PartsBreak [c] (textOf (reindent s (n + 1) cs rest)) := by
        refine ending.imp_right ?_
        rintro ⟨c, hc, hending, hwhole⟩
        exact ⟨c, hc, hending, fun hparts => hwhole ⟨hparts.1, head?_textOf_reindent tail hparts.2⟩⟩
      cases cs with
      | nil => exact .cons plain ending tail
      | cons p cs =>
          rw [reindent]
          split
          · refine .cons (isBreak_eq_false_of_reindented plain) ?_ ih
            rw [reindented_ending]
            exact hending cs
          · exact .cons plain (hending (p :: cs)) ih

/-- Each line is as before, or has the columns that there are for it. -/
theorem getElem?_reindent (hcs : cs.IsOrdered) (hfrom : ∀ p ∈ cs, n ≤ p.1) (i : Nat) :
    (reindent s n cs ls)[i]? = (ls[i]?).map fun l => (cs.lookup (n + i)).elim l (reindented s · l) := by
  -- lines and columns are walked together, so the next columns are for this line or for a later one
  induction ls generalizing n cs i with
  | nil => rw [reindent]; rfl
  | cons l ls ih =>
      cases cs with
      | nil => simp [reindent]
      | cons p cs =>
          obtain ⟨line, k⟩ := p
          obtain ⟨hall, htail⟩ := List.pairwise_cons.mp hcs
          rw [reindent]
          split
          · next heq =>
              subst heq
              cases i with
              | zero =>
                  show some _ = some ((((line, k) :: cs).lookup line).elim l (reindented s · l))
                  rw [List.lookup_cons_self]
                  rfl
              | succ i =>
                  have hne : (line + 1 + i == line) = false := beq_eq_false_iff_ne.mpr (by omega)
                  rw [List.getElem?_cons_succ, List.getElem?_cons_succ, ih htail hall]
                  simp only [Nat.add_right_comm line i 1, ← Nat.add_assoc, List.lookup_cons, hne]
          · next hne =>
              have hlater := hcs.later hfrom hne
              cases i with
              | zero =>
                  have hnone : ((line, k) :: cs).lookup n = none := by
                    refine List.lookup_eq_none_iff.mpr fun q hq => bne_iff_ne.mpr ?_
                    exact Nat.ne_of_lt (hlater q hq)
                  show some l = some ((((line, k) :: cs).lookup n).elim l (reindented s · l))
                  rw [hnone]
                  rfl
              | succ i =>
                  rw [List.getElem?_cons_succ, List.getElem?_cons_succ, ih hcs hlater]
                  simp only [Nat.add_right_comm n i 1, ← Nat.add_assoc]

/-- The edits for columns can be made, and leave the lines with these columns. -/
theorem exists_edited (b : Buffer) (s : Style) (hcs : cs.IsOrdered) :
    ∃ b', b.edited? (marginEdits b s cs) = some b' ∧
      ∀ n, b'.lines[n]? = (b.lines[n]?).map fun l => (cs.lookup n).elim l (reindented s · l) := by
  have hlines : b.lines = [] ++ b.lines := (List.nil_append b.lines).symm
  have hread : Text.size (textOf []) = 0 + Text.size [] := rfl
  obtain ⟨given, hgiven, hreplaces⟩ : Leaves b s 0 [] cs b.lines (reindent s 0 cs b.lines) :=
    leaves_reindent hcs (fun _ _ => Nat.zero_le _) hlines rfl hread
  rw [List.nil_append, List.nil_append, text_lines] at hreplaces
  refine ⟨_, hgiven.edited?_eq_of_replaces hreplaces, fun n => ?_⟩
  have hsplit : Split (reindent s 0 cs b.lines) := split_reindent (split_linesOf b.text)
  show (linesOf (textOf (reindent s 0 cs b.lines)))[n]? = _
  rw [linesOf_textOf hsplit, getElem?_reindent hcs fun _ _ => Nat.zero_le _, Nat.zero_add]

/-! ## Formatting a document -/

/-- A buffer has the lines of another one, but for the white space in front of some that are not blank. -/
structure DiffersInMargins (b b' : Buffer) (lines : List Nat) : Prop where
  lineCount : b'.lineCount = b.lineCount
  line : ∀ n l l', b.lines[n]? = some l → b'.lines[n]? = some l' → l'.ending = l.ending ∧
    trimStart l'.body = trimStart l.body ∧ (l' ≠ l → n ∈ lines ∧ isBlank l.body = false)

theorem indentation_settle_eq (c : Compilation) (s : Style) (lines : List Nat)
    (formatter : List Position → Option (List Nat)) : (indentation c s lines).settle formatter =
      marginEdits c.buffer s (((columns c lines).settle formatter).getD []) := by
  rw [indentation, settle_map]
  cases (columns c lines).settle formatter <;> rfl

theorem trimStart_reindented : trimStart (reindented s k l).body = trimStart l.body := by
  cases hblank : isBlank l.body with
  | true => rw [reindented_of_isBlank hblank]
  | false =>
      rw [reindented_of_not_isBlank hblank]
      exact trimStart_margin_append s k l.body

/-- A line with the columns that it should have is left as it is. -/
theorem marginEdit?_reindented (h : b.lineText? n = some (reindented s k l).body) : marginEdit? b s n k = none := by
  rw [marginEdit?, h]
  cases hblank : isBlank l.body with
  | true =>
      rw [reindented_of_isBlank hblank]
      simp [hblank]
  | false =>
      rw [reindented_of_not_isBlank hblank]
      have hmargin : (s.margin k ++ trimStart l.body).takeWhile isSpace = s.margin k :=
        takeWhile_append_of_head (fun c hc => Style.isSpace_of_mem_margin hc) (head?_trimStart l.body)
      simp [hmargin]

section Result

variable {lines : List Nat}

theorem differsInMargins (hkeys : ∀ n ∈ cs.map Prod.fst, n ∈ lines)
    (hb' : ∀ n, b'.lines[n]? = (b.lines[n]?).map fun l => (cs.lookup n).elim l (reindented s · l)) :
    DiffersInMargins b b' lines where
  lineCount := by
    have hnone (n : Nat) : b'.lines[n]? = none ↔ b.lines[n]? = none := by rw [hb', Option.map_eq_none_iff]
    simp only [List.getElem?_eq_none_iff] at hnone
    exact Nat.le_antisymm ((hnone _).mpr (Nat.le_refl _)) ((hnone _).mp (Nat.le_refl _))
  line n l l' hl hl' := by
    rw [hb', hl] at hl'
    obtain rfl := Option.some.inj hl'
    cases hk : cs.lookup n with
    | none => exact ⟨rfl, rfl, fun hne => absurd rfl hne⟩
    | some k =>
        refine ⟨reindented_ending, trimStart_reindented, fun hne => ⟨hkeys n ?_, ?_⟩⟩
        · obtain ⟨earlier, later, rfl, -⟩ := List.lookup_eq_some_iff.mp hk
          exact List.mem_map.mpr ⟨(n, k), by simp, rfl⟩
        · by_contra hblank
          exact hne (reindented_of_isBlank (Bool.of_not_eq_false hblank))

/-- A line with columns that is not blank measures as many. -/
theorem measure_of_lineText? (hs : 0 < s.tabSize) (hk : cs.lookup n = some k)
    (hb' : b'.lines[n]? = (b.lines[n]?).map fun l => (cs.lookup n).elim l (reindented s · l)) {body : Text}
    (hbody : b'.lineText? n = some body) (hblank : isBlank body = false) : measure body s.tabSize = k := by
  obtain ⟨l', hl', rfl⟩ := Option.map_eq_some_iff.mp hbody
  obtain ⟨l, -, rfl⟩ := Option.map_eq_some_iff.mp (hb'.symm.trans hl')
  rw [hk] at hblank ⊢
  rw [Option.elim_some] at hblank ⊢
  have hnot : isBlank l.body = false := by
    by_contra h
    have h := Bool.of_not_eq_false h
    rw [reindented_of_isBlank h, h] at hblank
    exact nomatch hblank
  rw [reindented_of_not_isBlank hnot]
  exact measure_margin hs (head?_trimStart l.body)

/-- Lines with the columns that they should have are not edited. -/
theorem marginEdits_eq_nil (hcs : cs.IsOrdered)
    (hb' : ∀ n, b'.lines[n]? = (b.lines[n]?).map fun l => (cs.lookup n).elim l (reindented s · l)) :
    marginEdits b' s cs = [] := by
  refine List.filterMap_eq_nil_iff.mpr fun p hp => ?_
  have hline : b'.lineText? p.1 = (b.lines[p.1]?).map fun l => (reindented s p.2 l).body := by
    rw [lineText?, hb', hcs.lookup_eq hp, Option.map_map]
    rfl
  cases hl : b.lines[p.1]? with
  | none =>
      rw [hl] at hline
      exact marginEdit?_eq_none_of_lineText? hline
  | some l =>
      rw [hl] at hline
      exact marginEdit?_reindented hline

end Result

/-- The edits that indent some lines of a document can be made, whatever a formatter answers. They change nothing
    but the white space in front of these lines where they are not blank. Each of these then measures as many
    columns as were found for it, and finding the same columns in the result leaves nothing to be edited. -/
theorem indentation_reindents (c : Compilation) (s : Style) (hs : 0 < s.tabSize) (lines : List Nat)
    (formatter : List Position → Option (List Nat)) :
    ∃ b', c.buffer.edited? ((indentation c s lines).settle formatter) = some b' ∧
      DiffersInMargins c.buffer b' lines ∧
      ∀ found, (columns c lines).settle formatter = some found →
        (∀ n ∈ lines, ∀ body, b'.lineText? n = some body → isBlank body = false →
          found.lookup n = some (measure body s.tabSize)) ∧
        ∀ c' lines' formatter', c'.buffer = b' → (columns c' lines').settle formatter' = some found →
          (indentation c' s lines').settle formatter' = [] := by
  have hfound : (((columns c lines).settle formatter).getD []).IsOrdered ∧
      ∀ n ∈ (((columns c lines).settle formatter).getD []).map Prod.fst, n ∈ lines := by
    cases h : (columns c lines).settle formatter with
    | none => exact ⟨.nil, nofun⟩
    | some found => exact ⟨(columns_settle h).1, fun n => ((columns_settle h).2 n).mp⟩
  obtain ⟨b', hedited, hb'⟩ := exists_edited c.buffer s hfound.1
  rw [indentation_settle_eq]
  refine ⟨b', hedited, differsInMargins hfound.2 hb', ?_⟩
  intro found h
  rw [h, Option.getD_some] at hb'
  obtain ⟨hordered, hkeys⟩ := columns_settle h
  refine ⟨?_, ?_⟩
  · intro n hn body hbody hblank
    obtain ⟨p, hp, rfl⟩ := List.mem_map.mp ((hkeys n).mpr hn)
    have hk := hordered.lookup_eq hp
    rw [measure_of_lineText? hs hk (hb' p.1) hbody hblank]
    exact hk
  · rintro c' lines' formatter' rfl h'
    rw [indentation_settle_eq, h']
    exact marginEdits_eq_nil hordered hb'

/-- A statement gets six columns, a tab and two blanks, and keeps them. -/
theorem indentation_reindents_statement :
    ∃ c c' : Compilation, 0 < (⟨4, false⟩ : Style).tabSize ∧ c.buffer.text = "@\x7b\n  x;\n\x7d".toList ∧
      c'.buffer.text = "@\x7b\n\t  x;\n\x7d".toList ∧
      (columns c [1]).settle (fun _ => some [0, 6]) = some [(1, 6)] ∧
      (columns c' [1]).settle (fun _ => some [0, 6]) = some [(1, 6)] ∧
      c.buffer.edited? ((indentation c ⟨4, false⟩ [1]).settle fun _ => some [0, 6]) = some c'.buffer ∧
      measure "\t  x;" 4 = 6 ∧ (indentation c' ⟨4, false⟩ [1]).settle (fun _ => some [0, 6]) = [] := by
  have hbefore : (Engine.bare.compileWhile (fun _ => true)
      ⟨.anonymous "@\x7b\n  x;\n\x7d", .legacy, []⟩).toOption.map (fun c =>
        (c.buffer.text, (columns c [1]).settle (fun _ => some [0, 6]),
          c.buffer.edited? ((indentation c ⟨4, false⟩ [1]).settle fun _ => some [0, 6]))) =
      some ("@\x7b\n  x;\n\x7d".toList, some [(1, 6)], some ⟨"@\x7b\n\t  x;\n\x7d".toList⟩) := by
    decide +kernel
  have hafter : (Engine.bare.compileWhile (fun _ => true)
      ⟨.anonymous "@\x7b\n\t  x;\n\x7d", .legacy, []⟩).toOption.map (fun c =>
        (c.buffer, (columns c [1]).settle fun _ => some [0, 6])) =
      some (⟨"@\x7b\n\t  x;\n\x7d".toList⟩, some [(1, 6)]) := by
    decide +kernel
  obtain ⟨c, -, hc⟩ := Engine.exists_ok_of_map_toOption hbefore
  obtain ⟨c', -, hc'⟩ := Engine.exists_ok_of_map_toOption hafter
  obtain ⟨htext, hc⟩ := Prod.mk.inj hc
  obtain ⟨hfound, hedits⟩ := Prod.mk.inj hc
  obtain ⟨hbuffer', hfound'⟩ := Prod.mk.inj hc'
  have hstyle : 0 < (⟨4, false⟩ : Style).tabSize := by decide
  obtain ⟨b', hedited, -, hresult⟩ := indentation_reindents c ⟨4, false⟩ hstyle [1] fun _ => some [0, 6]
  obtain ⟨hmeasure, hnone⟩ := hresult _ hfound
  have hsame : c'.buffer = b' := hbuffer'.trans (Option.some.inj (hedits.symm.trans hedited))
  have hline : b'.lineText? 1 = some "\t  x;".toList := by
    rw [← hsame, hbuffer']
    decide
  have hcolumns := hmeasure 1 (List.mem_singleton_self 1) _ hline (by decide)
  refine ⟨c, c', hstyle, htext, congrArg Buffer.text hbuffer', hfound, hfound', ?_, ?_, hnone c' [1] _ hsame hfound'⟩
  · rw [hedited, hsame]
  · exact (Option.some.inj hcolumns).symm

end Formatting

end RazorLang
