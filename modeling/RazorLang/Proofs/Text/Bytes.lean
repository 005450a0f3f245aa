import RazorLang.Text.Basic

/-!
# Texts as bytes

`splitAtByte?` cuts a text in two exactly where the offset is the size of its first part, so that a slice
of a text is a text with another one before it and one behind it.

`bytes` are the bytes of a text in UTF-8, of which there are `size` (`length_bytes`); those of a slice
stand in the text where the slice does (`getElem?_bytes_of_slice?`).
-/

namespace RazorLang.Text

/-- The two parts of a cut are the text, and the first has as many bytes as asked for. -/
theorem splitAtByte?_eq_some {n : Nat} {t u v : Text} (h : splitAtByte? n t = some (u, v)) :
    t = u ++ v ∧ size u = n := by
  fun_induction splitAtByte? n t generalizing u v with
  | case1 t =>
      obtain ⟨rfl, rfl⟩ := Prod.mk.inj (Option.some.inj h)
      exact ⟨rfl, rfl⟩
  | case2 n => exact nomatch h
  | case3 n c t hfits ih =>
      obtain ⟨⟨u', v'⟩, hcut, hparts⟩ := Option.map_eq_some_iff.mp h
      obtain ⟨rfl, rfl⟩ := Prod.mk.inj hparts
      obtain ⟨rfl, hsize⟩ := ih hcut
      refine ⟨rfl, ?_⟩
      rw [size_cons, hsize]
      omega
  | case4 n c t hover => exact nomatch h

/-- A text can be cut behind each of its parts. -/
theorem splitAtByte?_append (u v : Text) : splitAtByte? (size u) (u ++ v) = some (u, v) := by
  induction u with
  | nil => rw [size_nil, List.nil_append, splitAtByte?]
  | cons c u ih =>
      have hpos := Char.utf8Size_pos c
      obtain ⟨n, hn⟩ : ∃ n, size (c :: u) = n + 1 :=
        Nat.exists_eq_succ_of_ne_zero (by rw [size_cons]; omega)
      have hrest : n + 1 - c.utf8Size = size u := by
        rw [← hn, size_cons]
        omega
      rw [hn, List.cons_append, splitAtByte?, if_pos (by rw [← hn, size_cons]; omega), hrest, ih]
      rfl

/-- Of two cuts of a text, the one that is not behind the other parts what stands before that one. -/
theorem exists_between_of_size_le {u v u' v' : Text} (h : u ++ v = u' ++ v') (hle : size u ≤ size u') :
    ∃ w, u' = u ++ w ∧ v = w ++ v' := by
  rcases List.append_eq_append_iff.mp h with hbetween | ⟨w, hu, hv⟩
  · exact hbetween
  · cases w with
    | nil => exact ⟨[], by rw [hu]; simp, hv.symm⟩
    | cons c w =>
        have hpos := Char.utf8Size_pos c
        rw [hu, size_append, size_cons] at hle
        omega

/-- A text has only one cut at an offset. -/
theorem eq_of_size_eq {u v u' v' : Text} (h : u ++ v = u' ++ v') (hsize : size u = size u') :
    u = u' ∧ v = v' := by
  obtain ⟨w, rfl, rfl⟩ := exists_between_of_size_le h (Nat.le_of_eq hsize)
  cases w with
  | nil => exact ⟨(List.append_nil u).symm, rfl⟩
  | cons c w =>
      have hpos := Char.utf8Size_pos c
      rw [size_append, size_cons] at hsize
      omega

/-- The bytes of a part of a text are that part. -/
theorem slice?_append (u v w : Text) :
    slice? (size u) (size u + size v) (u ++ v ++ w) = some v := by
  rw [slice?, if_pos (by omega), List.append_assoc, splitAtByte?_append]
  show (splitAtByte? (size u + size v - size u) (v ++ w)).bind (fun p => some p.1) = some v
  rw [Nat.add_sub_cancel_left, splitAtByte?_append]
  rfl

theorem slice?_eq_some {start stop : Nat} {t u : Text} (h : slice? start stop t = some u) :
    ∃ before after, t = before ++ u ++ after ∧ size before = start ∧ start + size u = stop := by
  rw [slice?] at h
  by_cases hle : start ≤ stop
  · rw [if_pos hle] at h
    obtain ⟨⟨before, rest⟩, hbefore, hrest⟩ := Option.bind_eq_some_iff.mp h
    obtain ⟨⟨middle, after⟩, hmiddle, hu⟩ := Option.bind_eq_some_iff.mp hrest
    obtain rfl : middle = u := Option.some.inj hu
    obtain ⟨rfl, hstart⟩ := splitAtByte?_eq_some hbefore
    obtain ⟨rfl, hstop⟩ := splitAtByte?_eq_some hmiddle
    refine ⟨before, after, (List.append_assoc _ _ _).symm, hstart, ?_⟩
    omega
  · rw [if_neg hle] at h
    exact nomatch h

/-! ## Bytes -/

/-- The bytes of a text in UTF-8. -/
def bytes (t : Text) : List UInt8 := t.flatMap String.utf8EncodeChar

theorem bytes_cons (c : Char) (t : Text) : bytes (c :: t) = String.utf8EncodeChar c ++ bytes t := rfl

theorem bytes_append (s t : Text) : bytes (s ++ t) = bytes s ++ bytes t := List.flatMap_append

@[simp] theorem length_bytes (t : Text) : (bytes t).length = size t := by
  induction t with
  | nil => rfl
  | cons c t ih => rw [bytes_cons, List.length_append, String.length_utf8EncodeChar, ih, size_cons]

/-- The bytes of a text are valid UTF-8. -/
theorem isValidUTF8_bytes (t : Text) : (bytes t).toByteArray.IsValidUTF8 := ⟨t, rfl⟩

/-- The bytes of a slice stand in the text where the slice does. -/
theorem getElem?_bytes_of_slice? {start stop : Nat} {t u : Text} (h : slice? start stop t = some u)
    {i : Nat} (hi : start + i < stop) : (bytes t)[start + i]? = (bytes u)[i]? := by
  obtain ⟨before, after, rfl, rfl, hstop⟩ := slice?_eq_some h
  have hlt : i < (bytes u).length := by
    rw [length_bytes]
    omega
  rw [bytes_append, bytes_append, List.append_assoc,
    List.getElem?_append_right (by rw [length_bytes]; exact Nat.le_add_right _ _), length_bytes,
    Nat.add_sub_cancel_left, List.getElem?_append_left hlt]

/-- A character of ASCII is its only byte. -/
theorem utf8EncodeChar_of_lt {c : Char} (hc : c.toNat < 128) : String.utf8EncodeChar c = [c.val.toUInt8] :=
  String.utf8EncodeChar_eq_singleton
    (Char.utf8Size_eq_one_iff.mpr (UInt32.le_iff_toNat_le.mpr (Nat.le_of_lt_succ hc)))

/-- All bytes of a character beyond ASCII are beyond ASCII. -/
theorem le_of_mem_utf8EncodeChar {c : Char} (hc : 128 ≤ c.toNat) {b : UInt8}
    (hb : b ∈ String.utf8EncodeChar c) : 128 ≤ b.toNat := by
  have hof (n : Nat) : b = UInt8.ofNat n → b.toNat = n % 256 := fun h => by rw [h, UInt8.toNat_ofNat']
  have hlong : ¬ c.val.toNat ≤ 127 := Nat.not_le_of_gt hc
  simp only [String.utf8EncodeChar, if_neg hlong] at hb
  split at hb
  · simp only [List.mem_cons, List.not_mem_nil, or_false] at hb
    rcases hb with hb | hb <;> · have := hof _ hb; omega
  · split at hb
    · simp only [List.mem_cons, List.not_mem_nil, or_false] at hb
      rcases hb with hb | hb | hb <;> · have := hof _ hb; omega
    · simp only [List.mem_cons, List.not_mem_nil, or_false] at hb
      rcases hb with hb | hb | hb | hb <;> · have := hof _ hb; omega

/-- A character that breaks no line has no byte of one that does. -/
theorem ne_of_mem_utf8EncodeChar {c : Char} (hc : isLineBreak c = false) {b : UInt8}
    (hb : b ∈ String.utf8EncodeChar c) : b ≠ 10 ∧ b ≠ 13 := by
  have hcr : c.val.toNat ≠ 13 := by
    intro h
    obtain rfl : c = '\r' := Char.toNat_inj.mp h
    exact nomatch hc
  have hlf : c.val.toNat ≠ 10 := by
    intro h
    obtain rfl : c = '\n' := Char.toNat_inj.mp h
    exact nomatch hc
  have hne : b.toNat ≠ 10 ∧ b.toNat ≠ 13 := by
    by_cases hshort : c.toNat < 128
    · rw [utf8EncodeChar_of_lt hshort, List.mem_singleton] at hb
      have hbyte : b.toNat = c.val.toNat % 2 ^ 8 := by rw [hb, UInt32.toNat_toUInt8]
      have hval : c.val.toNat < 128 := hshort
      omega
    · have habove := le_of_mem_utf8EncodeChar (Nat.le_of_not_lt hshort) hb
      omega
  exact ⟨fun h => hne.1 (h ▸ rfl), fun h => hne.2 (h ▸ rfl)⟩

end RazorLang.Text
