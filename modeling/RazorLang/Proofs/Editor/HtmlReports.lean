import RazorLang.Editor.Report
import RazorLang.Proofs.Editor.Formatting
import RazorLang.Proofs.Editor.Positions

/-!
# Reports on the HTML

A report on the HTML of a document keeps its range, which is right where the same position is the same place
on both sides. Offsets are the same, but a position counts lines and UTF-16 units, and what masks a character
of code is as many bytes and not as many units. So both sides are in step at an offset
(`Projection.InStep`) if no code before it breaks a line in another way than a `\r` or a `\n`, and all code
before it on its line has one byte for each character.

Main statement: `Report.ofHtml_lands` — both sides are in step exactly where the positions are the same; a
report that starts in step is kept exactly if it starts in HTML, and it spans the bytes in the document that
it was reported for if it also stops in step. Where both sides are not in step, a report may be lost, or land
elsewhere (`Report.ofHtml_strays`).

The route: the characters of a document, each with whether it is markup (`Projection.markedChars`), are read
along with what they are in the HTML (`Projection.advance_masked_iff`).
-/

namespace RazorLang

open RazorLang.Tree Text

namespace Projection

/-! ## Characters and what masks them -/

/-- Code that is masked and has a text behind it does not move the place behind both: it breaks no line, unless
    it stays, and it has one byte, unless a line is broken behind it. -/
def MasksEvenly (c : Char) (behind : Text) : Prop :=
  (Buffer.isBreak c = true → isLineBreak c = true) ∧
    ((∀ d ∈ behind, Buffer.isBreak d = false) → c.utf8Size = 1)

instance (c : Char) (behind : Text) : Decidable (MasksEvenly c behind) :=
  -- The characters behind are a list: all characters there are must not be gone through.
  have : Decidable (∀ d ∈ behind, Buffer.isBreak d = false) := List.decidableBAll _ behind
  inferInstanceAs (Decidable (_ ∧ _))

/-- A document and its HTML are in step at an offset: all code before it is masked evenly. -/
def InStep (root : Tree) (t : Text) (i : Nat) : Prop :=
  ∃ u v, t = u ++ v ∧ Text.size u = i ∧
    ∀ x c y, u = x ++ c :: y → ¬ InMarkup root (Text.size x) → MasksEvenly c y

/-- The characters of some tokens, each with whether it is markup. -/
def charsOf (tokens : List (Bool × Token)) : List (Bool × Char) :=
  tokens.flatMap fun e => e.2.content.map (e.1, ·)

/-- The characters of a tree, each with whether it is markup. -/
def markedChars (root : Tree) : List (Bool × Char) := charsOf (marks root)

/-- A character is in the HTML as it is. -/
def stays (e : Bool × Char) : Bool := e.1 || isLineBreak e.2

/-- What a character is in the HTML. -/
def maskedChar (e : Bool × Char) : Text :=
  if stays e = true then [e.2] else List.replicate e.2.utf8Size '~'

/-- What some characters are in the HTML. -/
def masked (ms : List (Bool × Char)) : Text := ms.flatMap maskedChar

/-- All code among some characters is masked evenly. -/
def Level : List (Bool × Char) → Prop
  | [] => True
  | e :: ms => (e.1 = false → MasksEvenly e.2 (ms.map Prod.snd)) ∧ Level ms

instance decidableLevel : ∀ ms, Decidable (Level ms)
  | [] => inferInstanceAs (Decidable True)
  | e :: ms =>
    have := decidableLevel ms
    inferInstanceAs (Decidable ((e.1 = false → MasksEvenly e.2 (ms.map Prod.snd)) ∧ Level ms))

variable {root : Tree} {e : Bool × Char} {ms ns : List (Bool × Char)} {c : Char} {i : Nat}

theorem level_iff : Level ms ↔ ∀ before e behind, ms = before ++ e :: behind → e.1 = false →
    MasksEvenly e.2 (behind.map Prod.snd) := by
  induction ms with
  | nil =>
      refine iff_of_true trivial ?_
      intro before e behind h
      exact absurd h.symm (List.append_ne_nil_of_right_ne_nil before (List.cons_ne_nil e behind))
  | cons e ms ih =>
      rw [Level, ih]
      constructor
      · rintro ⟨he, hms⟩ before f behind h hf
        cases before with
        | nil =>
            obtain ⟨rfl, rfl⟩ := List.cons.inj h
            exact he hf
        | cons g before => exact hms before f behind (List.cons.inj h).2 hf
      · intro h
        refine ⟨h [] e ms rfl, ?_⟩
        intro before f behind hms
        exact h (e :: before) f behind (congrArg (e :: ·) hms)

theorem masked_cons (e : Bool × Char) (ms : List (Bool × Char)) :
    masked (e :: ms) = maskedChar e ++ masked ms := rfl

theorem masked_append (ms ns : List (Bool × Char)) : masked (ms ++ ns) = masked ms ++ masked ns :=
  List.flatMap_append

theorem isLineBreak_of_stays (h : stays e = false) : e.1 = false ∧ isLineBreak e.2 = false :=
  Bool.or_eq_false_iff.mp h

theorem size_masked (ms : List (Bool × Char)) : Text.size (masked ms) = Text.size (ms.map Prod.snd) := by
  have hreplicate (n : Nat) : Text.size (List.replicate n '~') = n := by
    induction n with
    | zero => rfl
    | succ n ih =>
        rw [List.replicate_succ, size_cons, ih]
        exact Nat.add_comm 1 n
  induction ms with
  | nil => rfl
  | cons e ms ih =>
      rw [masked_cons, size_append, ih, List.map_cons, size_cons, maskedChar]
      split
      · rfl
      · rw [hreplicate]

/-- The line breaks of a source stay, and there are no others where it is masked. -/
theorem mem_maskedChar (hc : isLineBreak c = true) {d : Char} (hd : d ∈ maskedChar e) :
    d = c ↔ e.2 = c := by
  rw [maskedChar] at hd
  split at hd
  · rw [List.mem_singleton.mp hd]
  · next hstays =>
      have hother := (isLineBreak_of_stays (Bool.eq_false_iff.mpr hstays)).2
      refine iff_of_false ?_ ?_
      · rintro rfl
        rw [(List.mem_replicate.mp hd).2] at hc
        exact nomatch hc
      · rintro rfl
        exact Bool.false_ne_true (hother.symm.trans hc)

theorem maskedChar_ne_nil (e : Bool × Char) : maskedChar e ≠ [] := by
  rw [maskedChar]
  split
  · exact List.cons_ne_nil _ _
  · exact List.ne_nil_of_length_pos (List.length_replicate ▸ Char.utf8Size_pos e.2)

/-- A surrogate pair in the HTML is one of the document. -/
theorem exists_of_masked_eq_cons {t : Text} (h : masked ms = c :: t) (hwidth : Buffer.width c = 2) :
    ∃ u, ms.map Prod.snd = c :: u := by
  cases ms with
  | nil => exact nomatch h
  | cons e ms =>
      obtain ⟨d, u, hu⟩ := List.exists_cons_of_ne_nil (maskedChar_ne_nil e)
      rw [masked_cons, hu, List.cons_append] at h
      obtain rfl : d = c := (List.cons.inj h).1
      have hd : d ∈ maskedChar e := hu ▸ List.mem_cons_self
      rw [maskedChar] at hd
      split at hd
      · exact ⟨ms.map Prod.snd, by rw [List.mem_singleton.mp hd]; rfl⟩
      · rw [(List.mem_replicate.mp hd).2] at hwidth
        exact nomatch hwidth

theorem head?_masked (hc : isLineBreak c = true) :
    (masked ms).head? = some c ↔ (ms.map Prod.snd).head? = some c := by
  cases ms with
  | nil => exact Iff.rfl
  | cons e ms =>
      obtain ⟨d, t, ht⟩ := List.exists_cons_of_ne_nil (maskedChar_ne_nil e)
      have hd : d ∈ maskedChar e := ht ▸ List.mem_cons_self
      rw [masked_cons, ht, List.cons_append, List.map_cons, List.head?_cons, List.head?_cons,
        Option.some_inj, Option.some_inj, mem_maskedChar hc hd]

theorem getLast?_masked (hc : isLineBreak c = true) :
    (masked ms).getLast? = some c ↔ (ms.map Prod.snd).getLast? = some c := by
  rcases List.eq_nil_or_concat' ms with rfl | ⟨ms, e, rfl⟩
  · exact Iff.rfl
  · obtain ⟨t, d, ht⟩ := (List.eq_nil_or_concat' (maskedChar e)).resolve_left (maskedChar_ne_nil e)
    have hd : d ∈ maskedChar e := ht ▸ List.mem_concat_self
    rw [masked_append, show masked [e] = maskedChar e from List.append_nil _, ht, ← List.append_assoc,
      List.getLast?_concat, List.map_append, List.map_singleton, List.getLast?_concat,
      Option.some_inj, Option.some_inj, mem_maskedChar hc hd]

/-- A cut is whole on both sides or on none. -/
theorem partsBreak_masked :
    PartsBreak (masked ms) (masked ns) ↔ PartsBreak (ms.map Prod.snd) (ns.map Prod.snd) :=
  and_congr (getLast?_masked rfl) (head?_masked rfl)

/-! ## Reading along -/

/-- A character that is not of one byte has less units than bytes. -/
theorem width_lt_or (c : Char) :
    c.utf8Size = 1 ∧ Buffer.width c = 1 ∨ c.utf8Size ≠ 1 ∧ Buffer.width c < c.utf8Size := by
  have hval : c.toNat = c.val.toNat := rfl
  rw [Char.utf8Size, Buffer.width, hval]
  simp only [UInt32.le_iff_toNat_le]
  split_ifs <;> simp_all <;> omega

/-- The position behind a character of which the HTML is here. -/
def maskedStep (q : Position) (e : Bool × Char) : Position :=
  if stays e = true then q.step e.2 else ⟨q.line, q.units + e.2.utf8Size⟩

/-- A position is not before another one in lines, and not behind it in the units of the same line. -/
def Slips (p q : Position) : Prop := q.line < p.line ∨ q.line = p.line ∧ p.units ≤ q.units

/-- Reading a `\r` that is the first half of a break does nothing, since the other half breaks the line. -/
theorem advance_of_partsBreak {t : Text} (h : PartsBreak [c] t) (p : Position) :
    p.advance (c :: t) = p.advance t := by
  obtain ⟨hc, ht⟩ := h
  obtain rfl : c = '\r' := Option.some.inj hc
  obtain ⟨t, rfl⟩ : ∃ t', t = '\n' :: t' := List.head?_eq_some_iff.mp ht
  have hwhole : ¬ PartsBreak ['\n'] t := fun h => nomatch h.1
  rw [Position.advance_break, Position.advance_cons hwhole]
  rfl

theorem advance_replicate (q : Position) (n : Nat) (t : Text) :
    q.advance (List.replicate n '~' ++ t) = Position.advance ⟨q.line, q.units + n⟩ t := by
  induction n generalizing q with
  | zero => rfl
  | succ n ih =>
      have hwhole : ¬ PartsBreak ['~'] (List.replicate n '~' ++ t) := fun h => nomatch h.1
      rw [List.replicate_succ, List.cons_append, Position.advance_cons hwhole, ih, Nat.add_comm n 1,
        ← Nat.add_assoc]
      rfl

theorem advance_masked_cons (h : ¬ PartsBreak [e.2] (ms.map Prod.snd)) (q : Position) :
    q.advance (masked (e :: ms)) = (maskedStep q e).advance (masked ms) := by
  have hwhole : ¬ PartsBreak [e.2] (masked ms) := by
    rintro ⟨hc, hhead⟩
    exact h ⟨hc, (head?_masked rfl).mp hhead⟩
  rw [masked_cons, maskedStep, maskedChar]
  split
  · rw [List.singleton_append, Position.advance_cons hwhole]
  · rw [advance_replicate]

theorem isBreak_of_isLineBreak (h : isLineBreak c = true) : Buffer.isBreak c = true := by
  rcases Bool.or_eq_true_iff.mp h with h | h
  · rw [beq_iff_eq.mp h]
    rfl
  · rw [beq_iff_eq.mp h]
    rfl

theorem slips_maskedStep {p q : Position} (h : Slips p q) (e : Bool × Char) :
    Slips (p.step e.2) (maskedStep q e) := by
  have hwidth := width_lt_or e.2
  rw [Slips] at h
  rw [Slips, maskedStep, Position.step, Position.step]
  by_cases hbreak : Buffer.isBreak e.2 = true
  · rw [if_pos hbreak, if_pos hbreak]
    split
    all_goals dsimp only; omega
  · rw [if_neg hbreak, if_neg hbreak]
    split
    all_goals dsimp only; omega

/-- Of one character: the positions behind it are the same if they were the same before it and it is masked
    evenly, as far as what follows on its line tells. -/
theorem maskedStep_iff {p q : Position} (h : Slips p q) (e : Bool × Char) (isLast : Prop) :
    (p.step e.2).line = (maskedStep q e).line ∧ (isLast → (p.step e.2).units = (maskedStep q e).units) ↔
      (e.1 = false → (Buffer.isBreak e.2 = true → isLineBreak e.2 = true) ∧ (isLast → e.2.utf8Size = 1)) ∧
        p.line = q.line ∧ (Buffer.isBreak e.2 = false ∧ isLast → p.units = q.units) := by
  have hwidth := width_lt_or e.2
  rw [Slips] at h
  rw [maskedStep, Position.step, Position.step]
  by_cases hbreak : Buffer.isBreak e.2 = true
  · rw [if_pos hbreak, if_pos hbreak]
    by_cases hline : isLineBreak e.2 = true
    · -- the break stays
      have hsize := utf8Size_of_isLineBreak hline
      rw [if_pos (show stays e = true by rw [stays, hline, Bool.or_true])]
      simp [hbreak, hline, hsize]
    · by_cases hmark : e.1 = true
      · rw [if_pos (show stays e = true by rw [stays, hmark, Bool.true_or])]
        simp [hbreak, hmark]
      · -- the break is masked, and the other side is a line behind for good
        rw [if_neg (show ¬ stays e = true by rw [stays, Bool.or_eq_true]; exact not_or.mpr ⟨hmark, hline⟩)]
        refine iff_of_false ?_ ?_
        · rintro ⟨hlines, -⟩
          dsimp only at hlines
          omega
        · rintro ⟨heven, -⟩
          exact hline ((heven (Bool.eq_false_iff.mpr hmark)).1 hbreak)
  · have hline : ¬ isLineBreak e.2 = true := fun h => hbreak (isBreak_of_isLineBreak h)
    rw [if_neg hbreak, if_neg hbreak]
    by_cases hmark : e.1 = true
    · rw [if_pos (show stays e = true by rw [stays, hmark, Bool.true_or])]
      simp [hbreak, hmark]
    · rw [if_neg (show ¬ stays e = true by rw [stays, Bool.or_eq_true]; exact not_or.mpr ⟨hmark, hline⟩)]
      by_cases hlast : isLast
      · simp only [hbreak, hmark, hlast]
        simp
        omega
      · simp [hbreak, hmark, hlast]

/-- Where reading a document leads is where reading its HTML leads, if all code in it is masked evenly and the
    positions before it are the same, as far as the lines behind it tell. -/
theorem advance_masked_iff (ms : List (Bool × Char)) {p q : Position} (h : Slips p q) :
    p.advance (ms.map Prod.snd) = q.advance (masked ms) ↔ Level ms ∧ p.line = q.line ∧
      ((∀ d ∈ ms.map Prod.snd, Buffer.isBreak d = false) → p.units = q.units) := by
  induction ms generalizing p q with
  | nil =>
      obtain ⟨line, units⟩ := p
      obtain ⟨line', units'⟩ := q
      show Position.mk line units = ⟨line', units'⟩ ↔ True ∧ line = line' ∧ _
      rw [Position.mk.injEq, true_and]
      exact and_congr_right fun _ => ⟨fun h _ => h, fun h => h (List.forall_mem_nil _)⟩
  | cons e ms ih =>
      rw [List.map_cons, Level, List.forall_mem_cons]
      by_cases hparts : PartsBreak [e.2] (ms.map Prod.snd)
      · -- the two halves of a `\r\n` stay, and the second one is a break behind the first
        obtain ⟨hc, hhead⟩ := hparts
        have he : e.2 = '\r' := Option.some.inj hc
        have hstays : maskedChar e = [e.2] := if_pos (by rw [stays, he, Bool.or_eq_true]; exact Or.inr rfl)
        have heven : MasksEvenly e.2 (ms.map Prod.snd) := he ▸ ⟨fun _ => rfl, fun _ => rfl⟩
        have hbehind : ¬ ∀ d ∈ ms.map Prod.snd, Buffer.isBreak d = false := fun hnone =>
          nomatch hnone '\n' (List.mem_of_head? hhead)
        rw [advance_of_partsBreak ⟨hc, hhead⟩, masked_cons, hstays, List.singleton_append,
          advance_of_partsBreak ⟨hc, (head?_masked rfl).mpr hhead⟩, ih h,
          and_iff_right (fun _ => heven : e.1 = false → _)]
        refine and_congr_right fun _ => and_congr_right fun _ => iff_of_true ?_ ?_
        · exact fun hnone => absurd hnone hbehind
        · exact fun hnone => absurd hnone.2 hbehind
      · rw [Position.advance_cons hparts, advance_masked_cons hparts]
        rw [ih (slips_maskedStep h e), maskedStep_iff h e, MasksEvenly, and_left_comm, and_assoc]

/-! ## The characters of a document -/

theorem map_snd_charsOf (tokens : List (Bool × Token)) :
    (charsOf tokens).map Prod.snd = contentOf (tokens.map Prod.snd) := by
  rw [contentOf, charsOf, List.map_flatMap, List.flatMap_map]
  refine List.flatMap_congr fun e _ => ?_
  rw [List.map_map]
  exact List.map_id _

/-- The HTML of a document consists of what its characters are in it. -/
theorem code_toHtml (p : ParsedDocument) : p.toHtml.code = masked (markedChars p.root) := by
  have hcode : p.toHtml.code = (marks p.root).flatMap
      fun e => if e.1 = true then e.2.content else mask e.2.content := by
    rw [marks, List.flatMap_map]
    rfl
  rw [hcode, markedChars, charsOf, masked, List.flatMap_assoc]
  refine List.flatMap_congr fun e _ => ?_
  rw [List.flatMap_map]
  by_cases hmark : e.1 = true
  · rw [if_pos hmark, hmark]
    exact (List.flatMap_singleton' e.2.content).symm
  · rw [if_neg hmark, Bool.eq_false_iff.mpr hmark]
    rfl

/-- Whatever is in a list of parts is in one of them. -/
theorem exists_of_flatMap_eq {α β : Type} {f : α → List β} {l : List α} {x y : List β} {b : β}
    (h : l.flatMap f = x ++ b :: y) : ∃ before a after x' y', l = before ++ a :: after ∧
      f a = x' ++ b :: y' ∧ x = before.flatMap f ++ x' := by
  induction l generalizing x with
  | nil => exact absurd h.symm (List.append_ne_nil_of_right_ne_nil x (List.cons_ne_nil b y))
  | cons a l ih =>
      rw [List.flatMap_cons] at h
      rcases List.append_eq_append_iff.mp h with ⟨x', rfl, hrest⟩ | ⟨z, hfirst, hz⟩
      · obtain ⟨before, a', after, x'', y', rfl, hfound, rfl⟩ := ih hrest
        exact ⟨a :: before, a', after, x'', y', rfl, hfound, by rw [List.flatMap_cons, List.append_assoc]⟩
      · cases z with
        | nil =>
            rw [List.append_nil] at hfirst
            obtain ⟨before, a', after, x'', y', rfl, hfound, hx⟩ := ih (x := []) hz.symm
            refine ⟨a :: before, a', after, x'', y', rfl, hfound, ?_⟩
            rw [List.flatMap_cons, List.append_assoc, ← hx, hfirst, List.append_nil]
        | cons d z =>
            obtain ⟨rfl, -⟩ := List.cons.inj hz
            exact ⟨[], a, l, x, z, rfl, hfirst, rfl⟩

end Projection

namespace ParsedDocument

open Projection

variable {p : ParsedDocument} {ms ns : List (Bool × Char)} {e : Bool × Char} {i : Nat}

/-- A character is markup where its bytes are. -/
theorem IsRun.inMarkup_iff_mark (h : p.IsRun) (hms : markedChars p.root = ms ++ e :: ns) :
    InMarkup p.root (Text.size (ms.map Prod.snd)) ↔ e.1 = true := by
  obtain ⟨before, ⟨mark, t⟩, after, x, y, hmarks, hchars, rfl⟩ := exists_of_flatMap_eq hms
  obtain ⟨u, v, hcontent, rfl, hv⟩ := List.map_eq_append_iff.mp hchars
  obtain ⟨c, v, rfl, rfl, rfl⟩ := List.map_eq_cons_iff.mp hv
  obtain ⟨owner, howner, heq⟩ := List.mem_map.mp
    (show (mark, t) ∈ marks p.root from hmarks ▸ List.mem_append_right before List.mem_cons_self)
  obtain ⟨rfl, rfl⟩ := Prod.mk.inj heq
  have hcontains : owner.2.span.contains
      (Text.size ((charsOf before ++ u.map (owner.1.isMarkup, ·)).map Prod.snd)) = true := by
    have htokens : p.root.tokens = before.map Prod.snd ++ owner.2 :: after.map Prod.snd := by
      rw [← map_snd_marks, hmarks, List.map_append, List.map_cons]
    have hchars : (charsOf before ++ u.map (owner.1.isMarkup, ·)).map Prod.snd =
        contentOf (before.map Prod.snd) ++ u := by
      rw [List.map_append, map_snd_charsOf, List.map_map]
      exact congrArg _ (List.map_id u)
    have hpos := Char.utf8Size_pos c
    obtain ⟨l, hrun⟩ := id h
    obtain ⟨hspan, hoffset⟩ := hrun.span_eq htokens
    rw [Span.contains_eq_true, Span.stop, h.span_length howner, hoffset, hchars, hcontent, size_append,
      size_append, size_cons]
    omega
  constructor
  · rintro ⟨f, hf, hmark, hcontains'⟩
    rw [h.eq_of_contains howner hf hcontains hcontains']
    exact hmark
  · intro hmark
    exact ⟨owner, howner, hmark, hcontains⟩

theorem IsRun.map_snd_markedChars (h : p.IsRun) : (markedChars p.root).map Prod.snd = p.source.text := by
  obtain ⟨l, hrun⟩ := h
  rw [markedChars, map_snd_charsOf, map_snd_marks, hrun.contentOf_eq]

/-- Where a document and its HTML are in step, in terms of its characters. -/
theorem IsRun.inStep_iff (h : p.IsRun) : InStep p.root p.source.text i ↔
    ∃ ms ns, markedChars p.root = ms ++ ns ∧ Text.size (ms.map Prod.snd) = i ∧ Level ms := by
  constructor
  · rintro ⟨u, v, hparts, rfl, heven⟩
    obtain ⟨ms, ns, hms, rfl, rfl⟩ := List.map_eq_append_iff.mp (h.map_snd_markedChars.trans hparts)
    refine ⟨ms, ns, hms, rfl, level_iff.mpr ?_⟩
    rintro before e behind rfl hmark
    refine heven (before.map Prod.snd) e.2 (behind.map Prod.snd) ?_ ?_
    · rw [List.map_append, List.map_cons]
    · rw [h.inMarkup_iff_mark (by rw [hms, List.append_assoc, List.cons_append]), hmark]
      exact Bool.false_ne_true
  · rintro ⟨ms, ns, hms, rfl, hlevel⟩
    refine ⟨ms.map Prod.snd, ns.map Prod.snd, ?_, rfl, ?_⟩
    · rw [← h.map_snd_markedChars, hms, List.map_append]
    · intro x c y hx hcode
      obtain ⟨before, rest, rfl, rfl, hrest⟩ := List.map_eq_append_iff.mp hx
      obtain ⟨e, behind, rfl, rfl, rfl⟩ := List.map_eq_cons_iff.mp hrest
      refine level_iff.mp hlevel before e behind rfl ?_
      rw [h.inMarkup_iff_mark (by rw [hms, List.append_assoc, List.cons_append])] at hcode
      exact Bool.eq_false_iff.mpr hcode

theorem advance_masked_start (ms : List (Bool × Char)) :
    Position.start.advance (masked ms) = Position.start.advance (ms.map Prod.snd) ↔ Level ms := by
  rw [eq_comm, advance_masked_iff ms (Or.inr ⟨rfl, Nat.le_refl _⟩)]
  exact ⟨And.left, fun h => ⟨h, rfl, fun _ => rfl⟩⟩

/-- The positions of a place are the same on both sides exactly where these are in step. -/
theorem IsRun.position?_eq_iff (h : p.IsRun) (hplace : (Buffer.mk p.source.text).IsPlace i) :
    (Buffer.mk p.toHtml.code).position? i = (Buffer.mk p.source.text).position? i ↔
      InStep p.root p.source.text i := by
  obtain ⟨u, v, htext, rfl, hwhole⟩ := hplace
  obtain ⟨ms, ns, hms, rfl, rfl⟩ := List.map_eq_append_iff.mp (h.map_snd_markedChars.trans htext)
  have hcode : (Buffer.mk p.toHtml.code).text = masked ms ++ masked ns := by
    rw [← masked_append, ← hms]
    exact code_toHtml p
  have hwhole' : ¬ PartsBreak (masked ms) (masked ns) := fun hparts => hwhole (partsBreak_masked.mp hparts)
  rw [Buffer.position?_size htext hwhole, ← size_masked, Buffer.position?_size hcode hwhole',
    Option.some_inj, advance_masked_start, h.inStep_iff]
  constructor
  · intro hlevel
    exact ⟨ms, ns, hms, (size_masked ms).symm, hlevel⟩
  · rintro ⟨ms', ns', hms', hsize, hlevel⟩
    have hcut := congrArg (List.map Prod.snd) (hms'.symm.trans hms)
    rw [List.map_append, List.map_append] at hcut
    have hmap := (eq_of_size_eq hcut (hsize.trans (size_masked ms))).1
    have hlength : ms'.length = ms.length := by
      rw [← List.length_map Prod.snd, hmap, List.length_map]
    exact (List.append_inj (hms'.symm.trans hms) hlength).1 ▸ hlevel

/-- Where both sides are in step, a position leads to the same place. -/
theorem IsRun.index?_of_inStep (h : p.IsRun) (hstep : InStep p.root p.source.text i) {q : Position}
    (hq : (Buffer.mk p.toHtml.code).index? q = some i) : (Buffer.mk p.source.text).index? q = some i := by
  obtain ⟨ms, ns, hms, rfl, hlevel⟩ := h.inStep_iff.mp hstep
  obtain ⟨u, v, htext, hsize, hwhole, hline, hunits⟩ := Buffer.index?_eq_some_iff.mp hq
  have hcode : masked ms ++ masked ns = u ++ v := by
    rw [← htext, ← masked_append, ← hms]
    exact (code_toHtml p).symm
  obtain ⟨rfl, rfl⟩ := eq_of_size_eq hcode ((size_masked ms).trans hsize.symm)
  rw [advance_masked_start ms |>.mpr hlevel] at hline hunits
  refine Buffer.index?_eq_some_iff.mpr ⟨ms.map Prod.snd, ns.map Prod.snd, ?_, rfl, ?_, hline, ?_⟩
  · show p.source.text = _
    rw [← h.map_snd_markedChars, hms, List.map_append]
  · exact fun hparts => hwhole (partsBreak_masked.mpr hparts)
  · refine hunits.imp_right ?_
    rintro ⟨c, w, hv, hwidth, hn⟩
    obtain ⟨w', hw'⟩ := exists_of_masked_eq_cons hv hwidth
    exact ⟨c, w', hw', hwidth, hn⟩

end ParsedDocument

namespace Report

open Projection

variable {e : Engine} {mayGoOn : Engine.Phase → Bool} {request : Request} {c : Compilation}

/-- The HTML of a document and the document have the same position for a place exactly if they are in step
    there. Of the reports on the HTML some are kept as they are: one that starts in step if and only if it
    starts in HTML, and if it stops in step too, it spans the same bytes of the document as of the HTML. -/
theorem ofHtml_lands (h : e.compileWhile mayGoOn request = .ok c) :
    (∀ i, c.buffer.IsPlace i → (c.htmlProjection.buffer.position? i = c.buffer.position? i ↔
      InStep c.document.root c.buffer.text i)) ∧
    ∀ reports, (ofHtml (.compiled c) c.buffer reports).Sublist reports ∧
      ∀ r ∈ reports, ∀ start stop, c.htmlProjection.buffer.span? r.range = some (start, stop) →
        InStep c.document.root c.buffer.text start →
          (r ∈ ofHtml (.compiled c) c.buffer reports ↔
            (CodeDocument.compiled c).languageAt start = .html) ∧
          (InStep c.document.root c.buffer.text stop → c.buffer.span? r.range = some (start, stop)) := by
  obtain ⟨hrun, htext, hhtml⟩ := ParsedDocument.isRun_compileWhile h
  have hsource : c.buffer = Buffer.mk c.document.source.text := congrArg Buffer.mk htext.symm
  have hcode : c.htmlProjection.buffer = Buffer.mk c.document.toHtml.code :=
    congrArg (fun g : Generated => Buffer.mk g.code) hhtml
  rw [hsource, hcode]
  refine ⟨fun i hi => hrun.position?_eq_iff hi, fun reports => ⟨List.filter_sublist, ?_⟩⟩
  intro r hr start stop hspan hstart
  obtain ⟨hindex, hindex', hle⟩ := Buffer.span?_eq_some_iff.mp hspan
  have hsame := hrun.index?_of_inStep hstart hindex
  refine ⟨?_, fun hstop =>
    Buffer.span?_eq_some_iff.mpr ⟨hsame, hrun.index?_of_inStep hstop hindex', hle⟩⟩
  rw [ofHtml, List.mem_filter, hsame, and_iff_right hr]
  exact beq_iff_eq

theorem inStep_of_take (h : e.compileWhile mayGoOn request = .ok c) {n i : Nat}
    (hsize : Text.size (((markedChars c.document.root).take n).map Prod.snd) = i)
    (hlevel : Level ((markedChars c.document.root).take n)) : InStep c.document.root c.buffer.text i := by
  obtain ⟨hrun, htext, -⟩ := ParsedDocument.isRun_compileWhile h
  rw [← htext]
  exact hrun.inStep_iff.mpr ⟨_, _, (List.take_append_drop n _).symm, hsize, hlevel⟩

/-- A report on some range. -/
def warning (range : Range) : Report := { range, urgency := some .warning, message := "unclosed" }

/-- A report on the line behind code with a character of two bytes. -/
theorem ofHtml_lands_nextLine :
    ∃ c, Engine.bare.compileWhile (fun _ => true) ⟨.anonymous "@é\n<b>x", .legacy, []⟩ = .ok c ∧
      c.htmlProjection.buffer.span? ⟨⟨1, 0⟩, ⟨1, 3⟩⟩ = some (4, 7) ∧
      InStep c.document.root c.buffer.text 4 ∧ InStep c.document.root c.buffer.text 7 ∧
      (warning ⟨⟨1, 0⟩, ⟨1, 3⟩⟩ ∈ ofHtml (.compiled c) c.buffer [warning ⟨⟨1, 0⟩, ⟨1, 3⟩⟩] ↔
        (CodeDocument.compiled c).languageAt 4 = .html) ∧
      c.buffer.span? ⟨⟨1, 0⟩, ⟨1, 3⟩⟩ = some (4, 7) := by
  have hfacts : (Engine.bare.compileWhile (fun _ => true)
      ⟨.anonymous "@é\n<b>x", .legacy, []⟩).toOption.map (fun c =>
        (c.htmlProjection.buffer.span? ⟨⟨1, 0⟩, ⟨1, 3⟩⟩, [3, 6].map fun n =>
          (Text.size (((markedChars c.document.root).take n).map Prod.snd),
            decide (Level ((markedChars c.document.root).take n))))) =
      some (some (4, 7), [(4, true), (7, true)]) := by
    decide +kernel
  obtain ⟨c, hc, hfacts⟩ := Engine.exists_ok_of_map_toOption hfacts
  obtain ⟨hspan, hsteps⟩ := Prod.mk.inj hfacts
  obtain ⟨hfour, hseven⟩ := List.cons.inj hsteps
  obtain ⟨hfour, hlevel⟩ := Prod.mk.inj hfour
  obtain ⟨hseven, hlevel'⟩ := Prod.mk.inj (List.cons.inj hseven).1
  have hstart := inStep_of_take hc hfour (of_decide_eq_true hlevel)
  have hstop := inStep_of_take hc hseven (of_decide_eq_true hlevel')
  obtain ⟨hkept, hlands⟩ := ((ofHtml_lands hc).2 [warning ⟨⟨1, 0⟩, ⟨1, 3⟩⟩]).2 _ List.mem_cons_self 4 7
    hspan hstart
  exact ⟨c, hc, hspan, hstart, hstop, hkept, hlands hstop⟩

/-- Behind code with two characters of two bytes on the same line, a report on the `>` of an element is lost
    although it is in HTML, and a report on its `<` is one on the `>` in the document. -/
theorem ofHtml_strays :
    ∃ c, Engine.bare.compileWhile (fun _ => true) ⟨.anonymous "@éé<b>", .legacy, []⟩ = .ok c ∧
      c.htmlProjection.buffer.span? ⟨⟨0, 7⟩, ⟨0, 8⟩⟩ = some (7, 8) ∧
      (CodeDocument.compiled c).languageAt 7 = .html ∧
      c.htmlProjection.buffer.span? ⟨⟨0, 5⟩, ⟨0, 6⟩⟩ = some (5, 6) ∧
      ofHtml (.compiled c) c.buffer [warning ⟨⟨0, 7⟩, ⟨0, 8⟩⟩, warning ⟨⟨0, 5⟩, ⟨0, 6⟩⟩] =
        [warning ⟨⟨0, 5⟩, ⟨0, 6⟩⟩] ∧
      c.buffer.span? ⟨⟨0, 5⟩, ⟨0, 6⟩⟩ = some (7, 8) := by
  have hspans : (Engine.bare.compileWhile (fun _ => true) ⟨.anonymous "@éé<b>", .legacy, []⟩).toOption.map
      (fun c => (c.htmlProjection.buffer.span? ⟨⟨0, 7⟩, ⟨0, 8⟩⟩,
        c.htmlProjection.buffer.span? ⟨⟨0, 5⟩, ⟨0, 6⟩⟩, c.buffer.span? ⟨⟨0, 5⟩, ⟨0, 6⟩⟩)) =
      some (some (7, 8), some (5, 6), some (7, 8)) := by
    decide +kernel
  have hreports : (Engine.bare.compileWhile (fun _ => true)
      ⟨.anonymous "@éé<b>", .legacy, []⟩).toOption.map (fun c =>
        ((CodeDocument.compiled c).languageAt 7,
          ofHtml (.compiled c) c.buffer [warning ⟨⟨0, 7⟩, ⟨0, 8⟩⟩, warning ⟨⟨0, 5⟩, ⟨0, 6⟩⟩])) =
      some (.html, [warning ⟨⟨0, 5⟩, ⟨0, 6⟩⟩]) := by
    decide +kernel
  obtain ⟨c, hc, hspans⟩ := Engine.exists_ok_of_map_toOption hspans
  rw [hc] at hreports
  obtain ⟨hlost, hspans⟩ := Prod.mk.inj hspans
  obtain ⟨hkept, hstray⟩ := Prod.mk.inj hspans
  obtain ⟨hlang, hreports⟩ := Prod.mk.inj (Option.some.inj hreports)
  exact ⟨c, hc, hlost, hlang, hkept, hreports, hstray⟩

end Report

end RazorLang
