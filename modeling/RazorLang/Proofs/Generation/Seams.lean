import RazorLang.Proofs.Generation.Layout

/-!
# Where the printer takes its mappings to start

The printer tracks its place chunk by chunk. Main statement: `start_of_mappingsFrom` — a mapping starts at
the place of its offset in the code, as many lines further down as there are cuts before it that are inside
of a `\r\n`, for each of which the printer has counted two lines where the code has one. Where only copied
chunks end in a `\r`, these are the mappings that end inside of a `\r\n` (`seams_eq_countP`).
-/

namespace RazorLang

open Text Print

/-! ## Reading on across a cut -/

namespace Location

/-- The place as many lines further down. -/
def below (l : Location) (n : Nat) : Location := { l with line := l.line + n }

theorem below_zero (l : Location) : l.below 0 = l := rfl

theorem below_below (l : Location) (m n : Nat) : (l.below m).below n = l.below (m + n) := by
  simp only [below, Nat.add_assoc]

theorem below_eq_self {l : Location} {n : Nat} : l = l.below n ↔ n = 0 := by
  constructor
  · intro h
    have hline : l.line = l.line + n := congrArg line h
    omega
  · rintro rfl
    rfl

/-- Reading on is the same on each line. -/
theorem advance_below (l : Location) (n : Nat) (t : Text) :
    (l.below n).advance t = (l.advance t).below n := by
  rw [advance_eq, advance_eq]
  simp only [below, mk.injEq, true_and, and_true]
  omega

/-- Where the cut between two texts is inside of a `\r\n`, reading one and then the other finds a line more
    than reading both. -/
theorem advance_advance_of_partsBreak {u v : Text} (h : PartsBreak u v) (l : Location) :
    (l.advance u).advance v = (l.advance (u ++ v)).below 1 := by
  obtain ⟨u, rfl⟩ := List.getLast?_eq_some_iff.mp h.1
  cases v with
  | nil => exact nomatch h.2
  | cons c v =>
      obtain rfl : c = '\n' := Option.some.inj h.2
      have hreturn : ¬ PartsBreak u ['\r'] := fun h => nomatch h.2
      have hbreak : ¬ PartsBreak u ('\r' :: '\n' :: v) := fun h => nomatch h.2
      rw [List.append_assoc, List.cons_append, List.nil_append, advance_append hreturn,
        advance_append hbreak, advance_break, ← advance_below,
        advance_cons (not_partsBreak_nil_right ['\r']), if_pos (by rfl), advance,
        advance_cons (c := '\n') (t := v) (fun h => absurd h.1 (by decide)), if_pos (by rfl)]
      rfl

/-- Reading one text and then another finds a line more than reading both exactly if the cut is inside of a
    `\r\n`. -/
theorem advance_advance (l : Location) (u v : Text) [Decidable (PartsBreak u v)] :
    (l.advance u).advance v = (l.advance (u ++ v)).below (if PartsBreak u v then 1 else 0) := by
  split
  · next h => exact advance_advance_of_partsBreak h l
  · next h => rw [advance_append h, below_zero]

end Location

instance (u v : Text) : Decidable (PartsBreak u v) :=
  inferInstanceAs (Decidable (u.getLast? = some '\r' ∧ v.head? = some '\n'))

/-- A cut behind which a whole text stands is inside of a `\r\n` exactly if it is so without what stands behind that
    text. -/
theorem partsBreak_append_iff {t u v : Text} (h : ¬ PartsBreak (t ++ u) v) :
    PartsBreak t (u ++ v) ↔ PartsBreak t u := by
  constructor
  · intro hparts
    by_contra hnot
    have hwhole : ¬ PartsBreak ([] ++ t) (u ++ v) := not_partsBreak_append (not_partsBreak_nil_left _) hnot h
    exact hwhole hparts
  · exact fun hparts => by_contra fun hnot => not_partsBreak_of_append_right hnot hparts

/-! ## Chunks -/

/-- Where the printer takes the end of some chunks to be. -/
def placeBehind (l : Location) : List Chunk → Location
  | [] => l
  | c :: rest => placeBehind (l.advance c.text) rest

/-- How many of the cuts between some chunks are inside of a `\r\n`. -/
def seams : List Chunk → Nat
  | [] => 0
  | c :: rest => (if PartsBreak c.text (codeOf rest) then 1 else 0) + seams rest

theorem placeBehind_append (l : Location) (cs ds : List Chunk) :
    placeBehind l (cs ++ ds) = placeBehind (placeBehind l cs) ds := by
  induction cs generalizing l with
  | nil => rfl
  | cons c cs ih => exact ih _

/-- The printer counts a line too many at each cut that is inside of a `\r\n`. -/
theorem placeBehind_eq (l : Location) (cs : List Chunk) :
    placeBehind l cs = (l.advance (codeOf cs)).below (seams cs) := by
  induction cs generalizing l with
  | nil => rfl
  | cons c cs ih =>
      rw [placeBehind, ih, Location.advance_advance, Location.below_below]
      rfl

/-- Chunks whose code is put behind other code at a cut that is whole. -/
theorem seams_append {cs ds : List Chunk} (h : ¬ PartsBreak (codeOf cs) (codeOf ds)) :
    seams (cs ++ ds) = seams cs + seams ds := by
  induction cs with
  | nil => exact (Nat.zero_add _).symm
  | cons c cs ih =>
      have hrest := not_partsBreak_of_append h
      have hiff : PartsBreak c.text (codeOf (cs ++ ds)) ↔ PartsBreak c.text (codeOf cs) := by
        rw [codeOf_append]
        exact partsBreak_append_iff h
      show (if PartsBreak c.text (codeOf (cs ++ ds)) then 1 else 0) + seams (cs ++ ds) = _
      rw [ih hrest, if_congr hiff rfl rfl, ← Nat.add_assoc]
      rfl

/-- Code whose chunks all end in something else does not end in a `\r`. -/
theorem getLast?_codeOf_ne {cs : List Chunk} (h : ∀ c ∈ cs, c.text.getLast? ≠ some '\r') :
    (codeOf cs).getLast? ≠ some '\r' := by
  induction cs with
  | nil => exact fun h => nomatch h
  | cons c cs ih =>
      rw [List.forall_mem_cons] at h
      rw [codeOf_cons, List.getLast?_append]
      cases hlast : (codeOf cs).getLast? with
      | none => exact h.1
      | some d =>
          rw [hlast] at ih
          exact ih h.2

theorem seams_eq_zero {cs : List Chunk} (h : ∀ c ∈ cs, c.text.getLast? ≠ some '\r') :
    seams cs = 0 := by
  induction cs with
  | nil => rfl
  | cons c cs ih =>
      rw [List.forall_mem_cons] at h
      rw [seams, ih h.2, if_neg fun hparts => h.1 hparts.1]

/-! ## Mappings -/

/-- A mapping ends inside of a `\r\n` of some code. -/
def Mapping.isHalved (code : Text) (m : Mapping) : Bool :=
  slice? (m.generated.stop - 1) (m.generated.stop + 1) code == some ['\r', '\n']

theorem mappingsFrom_append (l : Location) (cs ds : List Chunk) :
    mappingsFrom l (cs ++ ds) = mappingsFrom l cs ++ mappingsFrom (placeBehind l cs) ds := by
  induction cs generalizing l with
  | nil => rfl
  | cons c cs ih =>
      rw [List.cons_append, mappingsFrom, mappingsFrom, ih]
      cases c.source with
      | none => rfl
      | some source => rfl

theorem mappingsFrom_eq_nil {l : Location} {cs : List Chunk} (h : ∀ c ∈ cs, c.source = none) :
    mappingsFrom l cs = [] := by
  rw [List.eq_nil_iff_forall_not_mem]
  intro m hm
  obtain ⟨before, c, after, rfl, hsource, -⟩ := mem_mappingsFrom hm
  rw [h c (List.mem_append_right before (List.mem_cons_self ..))] at hsource
  exact nomatch hsource

/-- The mappings before one of them are those of the chunks before its chunk, and it starts where the
    printer takes these chunks to end. -/
theorem exists_of_mappingsFrom_eq {l : Location} {cs : List Chunk} {before after : List Mapping}
    {m : Mapping} (h : mappingsFrom l cs = before ++ m :: after) :
    ∃ ds c es, cs = ds ++ c :: es ∧ c.source = some m.source ∧ mappingsFrom l ds = before ∧
      m.generated.start = placeBehind l ds := by
  induction cs generalizing l before with
  | nil => exact absurd h.symm (by simp [mappingsFrom])
  | cons c cs ih =>
      rw [mappingsFrom] at h
      cases hsource : c.source with
      | none =>
          rw [hsource] at h
          obtain ⟨ds, d, es, rfl, hd, hbefore, hstart⟩ := ih h
          refine ⟨c :: ds, d, es, rfl, hd, ?_, hstart⟩
          rw [mappingsFrom, hsource]
          exact hbefore
      | some source =>
          rw [hsource] at h
          cases before with
          | nil =>
              obtain ⟨rfl, -⟩ := List.cons.inj h
              exact ⟨[], c, cs, rfl, hsource, rfl, rfl⟩
          | cons n before =>
              obtain ⟨rfl, hrest⟩ := List.cons.inj h
              obtain ⟨ds, d, es, rfl, hd, hbefore, hstart⟩ := ih hrest
              refine ⟨c :: ds, d, es, rfl, hd, ?_, hstart⟩
              rw [mappingsFrom, hsource]
              exact congrArg _ hbefore

/-- The mapping of a text ends inside of a `\r\n` exactly if the cut behind the text is inside of one. -/
theorem isHalved_iff {source : Span} {l : Location} {w t v : Text} (hl : l.offset = size w) (ht : t ≠ []) :
    Mapping.isHalved (w ++ t ++ v) ⟨source, ⟨none, l, size t⟩⟩ = true ↔ PartsBreak t v := by
  have hpos := size_pos_of_ne_nil ht
  have hstop : Span.stop ⟨none, l, size t⟩ = size (w ++ t) := by
    rw [Span.stop, hl, size_append]
  rw [Mapping.isHalved, beq_iff_eq]
  dsimp only
  rw [hstop]
  -- the bytes on both sides of the cut are `\r\n`: the first ends the text, and the second starts what follows
  constructor
  · intro h
    obtain ⟨x, y, htext, hx, -⟩ := slice?_eq_some h
    have hsize : size (w ++ t) = size (x ++ ['\r']) := by
      rw [size_append x, hx, show size ['\r'] = 1 from rfl, size_append]
      omega
    have hcut : w ++ t ++ v = (x ++ ['\r']) ++ '\n' :: y := by
      rw [htext, List.append_assoc, List.append_assoc]
      rfl
    obtain ⟨hleft, rfl⟩ := eq_of_size_eq hcut hsize
    refine ⟨?_, rfl⟩
    have hlast : (w ++ t).getLast? = some '\r' := by rw [hleft, List.getLast?_concat]
    rw [List.getLast?_append, List.getLast?_eq_some_getLast ht, Option.some_or] at hlast
    rw [List.getLast?_eq_some_getLast ht]
    exact hlast
  · rintro ⟨hlast, hhead⟩
    obtain ⟨x, rfl⟩ := List.getLast?_eq_some_iff.mp hlast
    cases v with
    | nil => exact absurd hhead.symm (Option.some_ne_none '\n')
    | cons c v =>
        obtain rfl : c = '\n' := Option.some.inj hhead
        have hslice := slice?_append (w ++ x) ['\r', '\n'] v
        rw [show size ['\r', '\n'] = 2 from rfl] at hslice
        rw [← List.append_assoc, size_append (w ++ x), show size ['\r'] = 1 from rfl,
          List.append_assoc (w ++ x), Nat.add_sub_cancel, Nat.add_assoc]
        rw [List.append_assoc (w ++ x)] at hslice
        exact hslice

/-- A chunk that is not copied does not end in a `\r`. -/
def Chunk.IsQuiet (c : Chunk) : Prop := c.source = none → c.text.getLast? ≠ some '\r'

/-- Where only copied chunks end in a `\r`, the cuts that are inside of a `\r\n` are those behind mappings
    that end inside of one. -/
theorem seams_eq_countP {l : Location} {w tail : Text} {cs : List Chunk} (hl : l.offset = size w)
    (hne : ∀ c ∈ cs, c.text ≠ []) (hquiet : ∀ c ∈ cs, c.IsQuiet)
    (htail : ¬ PartsBreak (codeOf cs) tail) :
    seams cs = (mappingsFrom l cs).countP (Mapping.isHalved (w ++ codeOf cs ++ tail)) := by
  induction cs generalizing l w with
  | nil => rfl
  | cons c cs ih =>
      rw [List.forall_mem_cons] at hne hquiet
      have hoffset : (l.advance c.text).offset = size (w ++ c.text) := by
        rw [Location.advance_offset, hl, size_append]
      have hrest := ih hoffset hne.2 hquiet.2 (not_partsBreak_of_append htail)
      have hcode : w ++ codeOf (c :: cs) ++ tail = w ++ c.text ++ codeOf cs ++ tail := by
        rw [codeOf_cons, ← List.append_assoc]
      rw [seams, hrest, hcode, mappingsFrom]
      cases hsource : c.source with
      | none =>
          rw [if_neg fun hparts => hquiet.1 hsource hparts.1, Nat.zero_add]
      | some source =>
          have hhalved :
              Mapping.isHalved (w ++ c.text ++ (codeOf cs ++ tail)) ⟨source, ⟨none, l, size c.text⟩⟩ = true ↔
                PartsBreak c.text (codeOf cs) :=
            (isHalved_iff hl hne.1).trans (partsBreak_append_iff htail)
          rw [← List.append_assoc] at hhalved
          dsimp only
          rw [List.countP_cons, Nat.add_comm, if_congr hhalved.symm rfl rfl]

/-- Code of quiet chunks, the last of which stands before a copied one, does not end in a `\r`. -/
theorem not_partsBreak_of_isChain {ds es : List Chunk} {c : Chunk} (hquiet : ∀ d ∈ ds, d.IsQuiet)
    (hapart : (ds ++ c :: es).IsChain Chunk.Apart) (hc : c.source ≠ none) (hds : ds ≠ [])
    (hne : ∀ d ∈ ds, d.text ≠ []) (v : Text) : ¬ PartsBreak (codeOf ds) v := by
  rintro ⟨hlast, -⟩
  obtain ⟨ds, d, rfl⟩ : ∃ fs d, ds = fs ++ [d] :=
    ⟨ds.dropLast, ds.getLast hds, (List.dropLast_append_getLast hds).symm⟩
  obtain ⟨-, -, hcut⟩ := List.isChain_append.mp hapart
  have hd : d ∈ ds ++ [d] := List.mem_append_right ds (List.mem_singleton_self d)
  have hplain : d.source = none :=
    (hcut d (List.getLast?_concat ..) c rfl).resolve_right hc
  rw [codeOf_append, codeOf_cons, List.getLast?_append, List.getLast?_append,
    List.getLast?_eq_some_getLast (hne d hd)] at hlast
  exact hquiet d hd hplain ((List.getLast?_eq_some_getLast (hne d hd)).trans hlast)

/-- Where a mapping starts, if the code is that of some chunks which are not copied and then of others of
    which only copied ones end in a `\r`. -/
theorem start_of_mappingsFrom {cs ds : List Chunk} {before after : List Mapping} {m : Mapping}
    (hplain : ∀ c ∈ cs, c.source = none) (hcut : ¬ PartsBreak (codeOf cs) (codeOf ds))
    (hne : ∀ d ∈ ds, d.text ≠ []) (hquiet : ∀ d ∈ ds, d.IsQuiet) (hapart : ds.IsChain Chunk.Apart)
    (h : mappingsFrom .start (cs ++ ds) = before ++ m :: after) :
    m.generated.start =
      ((Source.anonymous (codeOf (cs ++ ds))).location m.generated.start.offset).below
        (before.countP (Mapping.isHalved (codeOf (cs ++ ds))) + seams cs) := by
  rw [mappingsFrom_append, mappingsFrom_eq_nil hplain, List.nil_append] at h
  obtain ⟨es, c, fs, rfl, hc, rfl, hstart⟩ := exists_of_mappingsFrom_eq h
  have hes {d : Chunk} (hd : d ∈ es) : d ∈ es ++ c :: fs := List.mem_append_left _ hd
  have hcopied : c.source ≠ none := by
    rw [hc]
    exact Option.some_ne_none _
  have htail : ¬ PartsBreak (codeOf es) (codeOf (c :: fs)) := by
    cases hnil : es with
    | nil => exact not_partsBreak_nil_left _
    | cons d es' =>
        rw [← hnil]
        exact not_partsBreak_of_isChain (fun d hd => hquiet d (hes hd)) hapart hcopied
          (hnil ▸ List.cons_ne_nil d es') (fun d hd => hne d (hes hd)) _
  rw [codeOf_append] at hcut
  -- the cut before the chunk is whole, and so is that behind `cs`, which it is if nothing stands between
  have hwhole : ¬ PartsBreak (codeOf (cs ++ es)) (codeOf (c :: fs)) := by
    cases es with
    | nil =>
        rw [List.append_nil]
        exact hcut
    | cons d es =>
        rw [codeOf_append]
        refine not_partsBreak_append_left (fun hnil => ?_) htail
        exact hne d (List.mem_cons_self ..) (List.append_eq_nil_iff.mp hnil).1
  have hoffset : (placeBehind .start cs).offset = size (codeOf cs) := by
    rw [placeBehind_eq]
    exact Location.advance_start_offset _
  have hcount := seams_eq_countP hoffset (fun d hd => hne d (hes hd)) (fun d hd => hquiet d (hes hd)) htail
  have hcode : codeOf (cs ++ (es ++ c :: fs)) = codeOf (cs ++ es) ++ codeOf (c :: fs) := by
    rw [← List.append_assoc, codeOf_append]
  have hplace : m.generated.start = (Location.start.advance (codeOf (cs ++ es))).below (seams (cs ++ es)) := by
    rw [hstart, ← placeBehind_append, placeBehind_eq]
  have hstartOffset : m.generated.start.offset = size (codeOf (cs ++ es)) := by
    rw [hplace]
    exact Location.advance_start_offset _
  have hlocation := Source.location_of_append (d := Source.anonymous (codeOf (cs ++ (es ++ c :: fs)))) hcode
    hwhole
  rw [hstartOffset, hlocation, hplace, seams_append (not_partsBreak_of_append_right hcut), hcount, hcode,
    codeOf_append, Nat.add_comm]

end RazorLang
