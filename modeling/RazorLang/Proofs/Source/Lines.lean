import RazorLang.Source.Document

/-!
# Where the lines of a source start

A source finds the place of an offset by its line starts; a tokenizer gets there by reading on from the
place before. Main statements: `location_of_append` — the two agree at every offset between characters
that is not inside a `\r\n`; `advance_location` — a tokenizer that starts anywhere agrees with the source
wherever it gets to.

The route: the breaks of two texts one behind the other are those of the first and then those of the
second (`breaksFrom_append`); the former are not behind the cut and the latter are (`mem_breaksFrom`); so
the line starts up to the cut are the breaks that `advance` counts (`advance_eq`).
-/

namespace RazorLang

/-- The cut between two texts is inside a `\r\n`. -/
def Text.PartsBreak (u v : Text) : Prop := u.getLast? = some '\r' ∧ v.head? = some '\n'

namespace Text

theorem not_partsBreak_nil_left (v : Text) : ¬ PartsBreak [] v := fun h => nomatch h.1

theorem not_partsBreak_nil_right (u : Text) : ¬ PartsBreak u [] := fun h => nomatch h.2

/-- A cut that is whole is so without what stands before the last character. -/
theorem not_partsBreak_of_append {u v w : Text} (h : ¬ PartsBreak (u ++ v) w) :
    ¬ PartsBreak v w := by
  rintro ⟨hv, hw⟩
  exact h ⟨by rw [List.getLast?_append, hv]; rfl, hw⟩

/-- A cut that is whole is so without what stands behind the next character. -/
theorem not_partsBreak_of_append_right {u v w : Text} (h : ¬ PartsBreak u (v ++ w)) :
    ¬ PartsBreak u v := by
  rintro ⟨hu, hv⟩
  exact h ⟨hu, by rw [List.head?_append, hv]; rfl⟩

/-- A cut that is whole stays so with more before it, if there is something right before it. -/
theorem not_partsBreak_append_left {u v w : Text} (hv : v ≠ []) (h : ¬ PartsBreak v w) :
    ¬ PartsBreak (u ++ v) w := by
  rintro ⟨hlast, hw⟩
  rw [List.getLast?_append, List.getLast?_eq_some_getLast hv] at hlast
  exact h ⟨(List.getLast?_eq_some_getLast hv).trans hlast, hw⟩

/-- A cut inside of some text that is itself between whole cuts is whole if it is so in that text. -/
theorem not_partsBreak_append {u v before after : Text} (hstart : ¬ PartsBreak before (u ++ v ++ after))
    (h : ¬ PartsBreak u v) (hstop : ¬ PartsBreak (before ++ (u ++ v)) after) :
    ¬ PartsBreak (before ++ u) (v ++ after) := by
  rintro ⟨hlast, hhead⟩
  cases hu : u.getLast? with
  | none =>
      obtain rfl := List.getLast?_eq_none_iff.mp hu
      rw [List.append_nil] at hlast
      exact hstart ⟨hlast, hhead⟩
  | some c =>
      rw [List.getLast?_append, hu] at hlast
      cases v with
      | nil =>
          refine hstop ⟨?_, hhead⟩
          rw [List.append_nil, List.getLast?_append, hu]
          exact hlast
      | cons d v => exact h ⟨hu.trans hlast, hhead⟩

/-- A first character and what follows are parted by nothing that is not in the text or behind it. -/
theorem not_partsBreak_append_right {c : Char} {u v : Text} (h : ¬ PartsBreak (c :: u) v)
    (hu : ¬ PartsBreak [c] u) : ¬ PartsBreak [c] (u ++ v) := by
  cases u with
  | nil => exact h
  | cons d u => exact hu

/-- A text that starts with a `\r\n` is two bytes longer than what follows. -/
theorem size_break (t : Text) : size ('\r' :: '\n' :: t) = 2 + size t := by
  show Char.utf8Size '\r' + (Char.utf8Size '\n' + size t) = 2 + size t
  rw [show Char.utf8Size '\r' = 1 from rfl, show Char.utf8Size '\n' = 1 from rfl]
  omega

theorem utf8Size_of_isLineBreak {c : Char} (h : isLineBreak c = true) : c.utf8Size = 1 := by
  rw [isLineBreak, Bool.or_eq_true, beq_iff_eq, beq_iff_eq] at h
  rcases h with rfl | rfl <;> rfl

/-- The case of a text that starts with no `\r\n`, as the functions that read line breaks have it. -/
theorem not_break_of_forall {c : Char} {t : Text}
    (h : ∀ u, c = '\r' → t = '\n' :: u → False) : ¬ PartsBreak [c] t := by
  rintro ⟨hc, ht⟩
  cases t with
  | nil => exact nomatch ht
  | cons d u => exact h u (Option.some.inj hc) (by rw [Option.some.inj ht])

end Text

namespace Source

open Text

theorem breaksFrom_break (n : Nat) (t : Text) :
    breaksFrom n ('\r' :: '\n' :: t) = (n + 2) :: breaksFrom (n + 2) t := by
  rw [breaksFrom]

theorem breaksFrom_cons {c : Char} {t : Text} (h : ¬ PartsBreak [c] t) (n : Nat) :
    breaksFrom n (c :: t) =
      if isLineBreak c then (n + 1) :: breaksFrom (n + 1) t
      else breaksFrom (n + c.utf8Size) t := by
  rw [breaksFrom]
  rintro u rfl rfl
  exact h ⟨rfl, rfl⟩

/-- The breaks of a text lie behind its start and not behind its end. -/
theorem mem_breaksFrom {t : Text} {n b : Nat} (h : b ∈ breaksFrom n t) :
    n < b ∧ b ≤ n + Text.size t := by
  induction n, t using breaksFrom.induct with
  | case1 n => exact nomatch h
  | case2 n t ih =>
      rw [breaksFrom_break] at h
      rw [size_break]
      rcases List.mem_cons.mp h with rfl | h
      · omega
      · have := ih h
        omega
  | case3 n c t hnot hbreak ih =>
      rw [breaksFrom_cons (not_break_of_forall hnot), if_pos hbreak] at h
      rw [size_cons, utf8Size_of_isLineBreak hbreak]
      rcases List.mem_cons.mp h with rfl | h
      · omega
      · have := ih h
        omega
  | case4 n c t hnot hother ih =>
      rw [breaksFrom_cons (not_break_of_forall hnot), if_neg hother] at h
      rw [size_cons]
      have := ih h
      omega

/-- Breaks of two texts, one behind the other, whose cut is whole. -/
theorem breaksFrom_append {u v : Text} (h : ¬ PartsBreak u v) (n : Nat) :
    breaksFrom n (u ++ v) = breaksFrom n u ++ breaksFrom (n + Text.size u) v := by
  induction n, u using breaksFrom.induct with
  | case1 n => rfl
  | case2 n u ih =>
      have hu : ¬ PartsBreak u v := not_partsBreak_of_append (u := ['\r', '\n']) h
      rw [List.cons_append, List.cons_append, breaksFrom_break, breaksFrom_break, ih hu, size_break]
      rw [Nat.add_assoc]
      rfl
  | case3 n c u hnot hbreak ih =>
      have hu : ¬ PartsBreak u v := not_partsBreak_of_append (u := [c]) h
      have hc := not_partsBreak_append_right h (not_break_of_forall hnot)
      rw [List.cons_append, breaksFrom_cons hc, if_pos hbreak,
        breaksFrom_cons (not_break_of_forall hnot), if_pos hbreak, ih hu, size_cons,
        utf8Size_of_isLineBreak hbreak, Nat.add_assoc]
      rfl
  | case4 n c u hnot hother ih =>
      have hu : ¬ PartsBreak u v := not_partsBreak_of_append (u := [c]) h
      have hc := not_partsBreak_append_right h (not_break_of_forall hnot)
      rw [List.cons_append, breaksFrom_cons hc, if_neg hother,
        breaksFrom_cons (not_break_of_forall hnot), if_neg hother, ih hu, size_cons, Nat.add_assoc]

end Source

namespace Location

open Text Source

theorem advance_break (l : Location) (t : Text) :
    l.advance ('\r' :: '\n' :: t) = advance ⟨l.offset + 2, l.line + 1, 0⟩ t := by
  rw [advance]

theorem advance_cons {c : Char} {t : Text} (h : ¬ PartsBreak [c] t) (l : Location) :
    l.advance (c :: t) =
      if isLineBreak c then advance ⟨l.offset + 1, l.line + 1, 0⟩ t
      else advance ⟨l.offset + c.utf8Size, l.line, l.column + c.utf8Size⟩ t := by
  rw [advance]
  rintro u rfl rfl
  exact h ⟨rfl, rfl⟩

/-- Reading on counts bytes, breaks, and the bytes behind the last break. -/
theorem advance_eq (l : Location) (t : Text) :
    l.advance t =
      ⟨l.offset + size t, l.line + (breaksFrom l.offset t).length,
        match (breaksFrom l.offset t).getLast? with
        | none => l.column + size t
        | some b => l.offset + size t - b⟩ := by
  induction l, t using advance.induct with
  | case1 l => rfl
  | case2 l t ih =>
      rw [advance_break, ih, breaksFrom_break, size_break, List.getLast?_cons, List.length_cons]
      simp only [mk.injEq]
      refine ⟨by omega, by omega, ?_⟩
      cases (breaksFrom (l.offset + 2) t).getLast? with
      | none => show 0 + size t = l.offset + (2 + size t) - (l.offset + 2); omega
      | some b => show l.offset + 2 + size t - b = l.offset + (2 + size t) - b; omega
  | case3 l c t hnot hbreak ih =>
      rw [advance_cons (not_break_of_forall hnot), if_pos hbreak, ih,
        breaksFrom_cons (not_break_of_forall hnot), if_pos hbreak, size_cons,
        utf8Size_of_isLineBreak hbreak, List.getLast?_cons, List.length_cons]
      simp only [mk.injEq]
      refine ⟨by omega, by omega, ?_⟩
      cases (breaksFrom (l.offset + 1) t).getLast? with
      | none => show 0 + size t = l.offset + (1 + size t) - (l.offset + 1); omega
      | some b => show l.offset + 1 + size t - b = l.offset + (1 + size t) - b; omega
  | case4 l c t hnot hother ih =>
      rw [advance_cons (not_break_of_forall hnot), if_neg hother, ih,
        breaksFrom_cons (not_break_of_forall hnot), if_neg hother, size_cons]
      simp only [mk.injEq]
      refine ⟨by omega, trivial, ?_⟩
      cases (breaksFrom (l.offset + c.utf8Size) t).getLast? with
      | none => show l.column + c.utf8Size + size t = l.column + (c.utf8Size + size t); omega
      | some b =>
          show l.offset + c.utf8Size + size t - b = l.offset + (c.utf8Size + size t) - b
          omega

/-- Reading two texts, one behind the other, whose cut is whole. -/
theorem advance_append {u v : Text} (h : ¬ PartsBreak u v) (l : Location) :
    l.advance (u ++ v) = (l.advance u).advance v := by
  induction l, u using advance.induct with
  | case1 l => rfl
  | case2 l u ih =>
      have hu : ¬ PartsBreak u v := not_partsBreak_of_append (u := ['\r', '\n']) h
      rw [List.cons_append, List.cons_append, advance_break, advance_break, ih hu]
  | case3 l c u hnot hbreak ih =>
      have hu : ¬ PartsBreak u v := not_partsBreak_of_append (u := [c]) h
      have hc := not_partsBreak_append_right h (not_break_of_forall hnot)
      rw [List.cons_append, advance_cons hc, if_pos hbreak, ih hu,
        advance_cons (not_break_of_forall hnot), if_pos hbreak]
  | case4 l c u hnot hother ih =>
      have hu : ¬ PartsBreak u v := not_partsBreak_of_append (u := [c]) h
      have hc := not_partsBreak_append_right h (not_break_of_forall hnot)
      rw [List.cons_append, advance_cons hc, if_neg hother, ih hu,
        advance_cons (not_break_of_forall hnot), if_neg hother]

@[simp] theorem advance_offset (l : Location) (t : Text) :
    (l.advance t).offset = l.offset + size t := by
  rw [advance_eq]

theorem advance_start_offset (t : Text) : (start.advance t).offset = size t :=
  (advance_offset start t).trans (Nat.zero_add _)

end Location

namespace Source

open Text

/-- An offset is in the line of a place before it, if no line starts between the two. -/
theorem location_eq {d : Source} {u v : Text} {n : Nat} (htext : d.text = u ++ v)
    (h : ¬ PartsBreak u v) (hge : Text.size u ≤ n) (hle : n ≤ d.size)
    (hnone : ∀ b ∈ breaksFrom (Text.size u) v, n < b) :
    d.location n = ⟨n, (Location.start.advance u).line,
      (Location.start.advance u).column + (n - Text.size u)⟩ := by
  have hmin : min n d.size = n := Nat.min_eq_left hle
  have hstarts : d.lineStarts = 0 :: (breaksFrom 0 u ++ breaksFrom (Text.size u) v) := by
    show 0 :: breaksFrom 0 d.text = _
    rw [htext, breaksFrom_append h, Nat.zero_add]
  have hbefore (b : Nat) (hb : b ∈ breaksFrom 0 u) : b ≤ Text.size u := by
    have := (mem_breaksFrom hb).2
    omega
  have hupTo : d.lineStarts.takeWhile (· ≤ n) = 0 :: breaksFrom 0 u := by
    rw [hstarts, List.takeWhile_cons_of_pos (by simp), List.takeWhile_append_of_pos]
    · congr 1
      cases hv : breaksFrom (Text.size u) v with
      | nil => exact List.append_nil _
      | cons b rest =>
          have := hnone b (by rw [hv]; exact List.mem_cons_self ..)
          rw [List.takeWhile_cons_of_neg (by simpa using this), List.append_nil]
    · intro b hb
      have := hbefore b hb
      simp only [decide_eq_true_eq]
      omega
  rw [location, locate, hmin, hupTo, Location.advance_eq, Location.start]
  simp only [Location.mk.injEq, List.length_cons, List.getLast?_cons]
  refine ⟨trivial, by omega, ?_⟩
  cases hlast : (breaksFrom 0 u).getLast? with
  | none => show n - 0 = 0 + Text.size u + (n - Text.size u); omega
  | some b =>
      have := hbefore b (List.mem_of_getLast? hlast)
      show n - b = 0 + Text.size u - b + (n - Text.size u)
      omega

/-- The place of an offset between characters is where reading up to it leads. -/
theorem location_of_append {d : Source} {u v : Text} (htext : d.text = u ++ v)
    (h : ¬ PartsBreak u v) : d.location (Text.size u) = Location.start.advance u := by
  have hle : Text.size u ≤ d.size := by
    show Text.size u ≤ Text.size d.text
    rw [htext, size_append]
    omega
  rw [location_eq htext h (Nat.le_refl _) hle fun b hb => (mem_breaksFrom hb).1]
  rw [Nat.sub_self, Nat.add_zero, ← Location.advance_start_offset u]

/-- The place inside of a `\r\n` is still in the line that it ends. -/
theorem location_in_break {d : Source} {u v : Text} (htext : d.text = u ++ '\r' :: '\n' :: v) :
    d.location (Text.size u + 1) = ⟨Text.size u + 1, (Location.start.advance u).line,
      (Location.start.advance u).column + 1⟩ := by
  have hle : Text.size u + 1 ≤ d.size := by
    show Text.size u + 1 ≤ Text.size d.text
    rw [htext, size_append, size_break]
    omega
  rw [location_eq htext (fun h => nomatch h.2) (Nat.le_add_right _ 1) hle, Nat.add_sub_cancel_left]
  intro b hb
  rw [breaksFrom_break] at hb
  rcases List.mem_cons.mp hb with rfl | hb
  · omega
  · have := (mem_breaksFrom hb).1
    omega

/-- Reading on from a place of a source leads to a place of the source, also from inside of a `\r\n`, as long
    as it does not end there. -/
theorem advance_location {d : Source} {u v w : Text} (htext : d.text = u ++ (v ++ w))
    (h : ¬ PartsBreak v w) : (d.location (Text.size u)).advance v = d.location (Text.size (u ++ v)) := by
  cases v with
  | nil => rw [List.append_nil, Location.advance]
  | cons c v =>
      have hwhole : ¬ PartsBreak (u ++ c :: v) w := by
        rintro ⟨hlast, hhead⟩
        rw [List.getLast?_append, List.getLast?_cons] at hlast
        exact h ⟨by rw [List.getLast?_cons]; exact hlast, hhead⟩
      rw [location_of_append (by rw [htext, List.append_assoc]) hwhole]
      by_cases hparts : PartsBreak u (c :: v ++ w)
      · -- The place is inside of a `\r\n`, the second half of which is read first.
        obtain ⟨hu, hc⟩ := hparts
        obtain ⟨u, rfl⟩ := List.getLast?_eq_some_iff.mp hu
        obtain rfl : c = '\n' := Option.some.inj hc
        have hbreak : u ++ ['\r'] ++ '\n' :: v = u ++ ('\r' :: '\n' :: v) := by simp
        have hbefore : ¬ PartsBreak u ('\r' :: '\n' :: v) := fun h => nomatch h.2
        have hbehind : ¬ PartsBreak ['\n'] v := fun h => nomatch h.1
        rw [size_append, show Text.size ['\r'] = 1 from rfl,
          location_in_break (u := u) (v := v ++ w) (by rw [htext]; simp), hbreak,
          Location.advance_append hbefore, Location.advance_break, Location.advance_cons hbehind,
          if_pos (show isLineBreak '\n' = true from rfl), Location.advance_offset]
        exact congrArg (Location.advance · v) (by simp [Location.start])
      · have hcut : ¬ PartsBreak u (c :: v) := hparts
        rw [location_of_append htext hparts, Location.advance_append hcut]

end Source

end RazorLang
