import Mathlib.Data.List.TakeWhile
import RazorLang.Proofs.Text.Bytes
import RazorLang.Token.CSharp

/-!
# Lexemes of C#

The lexeme at the front of a text takes something of it, and what it takes is a lexeme by itself, of the same
kind: `Lexeme.lead?_stable`. This counts the characters of a lexeme as well as its bytes, which are counted by
the offsets of characters in identifiers and one by one in numbers (`Lexeme.leadBytes?`).

The route: a lexeme is one of four kinds, of which the first that the text has is taken (`Lexeme.IsLead`), and
each of them is found again in each beginning of the text that has it (`Lexeme.IsLead.take`).

For numbers this comes from their parts. Each part is counted by a function that is put together from a few
others, and each of these is settled by the characters that it counts (`Lexeme.Counts`). They count visible
characters of ASCII only, which have one byte each, so that a number is the same if the text is read byte by
byte (`Lexeme.number_octets`).
-/

namespace RazorLang

open Text

namespace Lexeme

/-- The visible characters of ASCII. -/
def isVisible (c : Char) : Bool := 0x20 < c.toNat && c.toNat < 0x7F

variable {f g : Text → Nat} {p : Char → Bool} {t : Text} {m n least : Nat}

/-! ## Counting at the front of a text -/

/-- What is counted are visible characters at the front of a text, and as many are counted in each beginning of
    the text that has them. -/
structure Counts (f : Text → Nat) : Prop where
  le_length : ∀ t : Text, f t ≤ t.length
  visible : ∀ t : Text, ∀ c ∈ t.take (f t), isVisible c = true
  take : ∀ (t : Text) (n : Nat), f t ≤ n → f (t.take n) = f t

/-- Nothing is counted. -/
def nothing (_ : Text) : Nat := 0

/-- A character that satisfies `p`, and what `f` counts behind it, which must be at least `least`. -/
def led (p : Char → Bool) (least : Nat) (f : Text → Nat) : Text → Nat
  | c :: t => if p c = true ∧ least ≤ f t then f t + 1 else 0
  | [] => 0

/-- What `f` counts, and what `g` counts behind that. -/
def andThen (f g : Text → Nat) (t : Text) : Nat := f t + g (t.drop (f t))

/-- What `f` counts, or what `g` counts if that is nothing. -/
def orElse (f g : Text → Nat) (t : Text) : Nat := if f t = 0 then g t else f t

/-- Where nothing must be counted behind the first character, only that one decides. -/
theorem led_zero (p : Char → Bool) (f : Text → Nat) (c : Char) (t : Text) :
    led p 0 f (c :: t) = if p c = true then f t + 1 else 0 := by
  simp only [led, Nat.zero_le, and_true]

/-- Where something must be counted behind the first character, there is a second one. -/
theorem exists_of_led_one (hf : f [] = 0) (h : led p 1 f t ≠ 0) : ∃ c d u, t = c :: d :: u ∧ p c = true := by
  cases t with
  | nil => exact absurd rfl h
  | cons c t =>
      by_cases hled : p c = true ∧ 1 ≤ f t
      · cases t with
        | nil =>
            rw [hf] at hled
            exact nomatch hled.2
        | cons d u => exact ⟨c, d, u, rfl, hled.1⟩
      · exact absurd (if_neg hled) h

/-- No beginning of a text has more to count than the text. -/
theorem Counts.take_le (hf : Counts f) (t : Text) (n : Nat) : f (t.take n) ≤ f t := by
  by_cases h : f t ≤ n
  · exact Nat.le_of_eq (hf.take t n h)
  · have hlength := hf.le_length (t.take n)
    have htake := List.length_take_le n t
    omega

/-- What is counted behind the first characters of a text is counted in each beginning of the text that has it. -/
theorem Counts.drop_take (hf : Counts f) (h : m + f (t.drop m) ≤ n) : f ((t.take n).drop m) = f (t.drop m) := by
  rw [List.drop_take]
  exact hf.take _ _ (by omega)

/-- The first of two is counted in full. -/
theorem le_orElse (f g : Text → Nat) (t : Text) : f t ≤ orElse f g t := by
  rw [orElse]
  split
  · next hzero => exact hzero ▸ Nat.zero_le _
  · exact Nat.le_refl _

theorem counts_nothing : Counts nothing where
  le_length _ := Nat.zero_le _
  visible _ _ hc := nomatch hc
  take _ _ _ := rfl

theorem countWhile_take (h : countWhile p t ≤ n) : countWhile p (t.take n) = countWhile p t := by
  rw [countWhile, ← List.take_takeWhile, List.take_of_length_le h]
  rfl

theorem counts_countWhile (hp : ∀ c, p c = true → isVisible c = true) : Counts (countWhile p) where
  le_length t := (List.takeWhile_prefix p).length_le
  visible t c hc := by
    rw [countWhile, ← List.prefix_iff_eq_take.mp (List.takeWhile_prefix p)] at hc
    exact hp c (List.mem_takeWhile_imp hc)
  take t n h := countWhile_take h

theorem counts_led (hf : Counts f) (hp : ∀ c, p c = true → isVisible c = true) : Counts (led p least f) where
  le_length t := by
    cases t with
    | nil => exact Nat.le_refl _
    | cons c t =>
        rw [led]
        split
        · exact Nat.succ_le_succ (hf.le_length t)
        · exact Nat.zero_le _
  visible t c hc := by
    cases t with
    | nil => exact nomatch hc
    | cons d t =>
        rw [led] at hc
        split at hc
        · next hled =>
            rw [List.take_succ_cons] at hc
            rcases List.mem_cons.mp hc with rfl | hc
            · exact hp c hled.1
            · exact hf.visible t c hc
        · exact nomatch hc
  take t n h := by
    cases t with
    | nil => rw [List.take_nil]
    | cons c t =>
        cases n with
        | zero => exact (Nat.le_zero.mp h).symm
        | succ n =>
            rw [led] at h
            rw [List.take_succ_cons, led, led]
            by_cases hled : p c = true ∧ least ≤ f t
            · rw [if_pos hled] at h
              rw [hf.take t n (Nat.le_of_succ_le_succ h)]
            · -- a beginning of the text has no more of what there is too little of
              have hpart : ¬ (p c = true ∧ least ≤ f (t.take n)) := fun hpart =>
                hled ⟨hpart.1, Nat.le_trans hpart.2 (hf.take_le t n)⟩
              rw [if_neg hled, if_neg hpart]

theorem counts_andThen (hf : Counts f) (hg : Counts g) : Counts (andThen f g) where
  le_length t := by
    have hfirst := hf.le_length t
    have hsecond := hg.le_length (t.drop (f t))
    rw [List.length_drop] at hsecond
    rw [andThen]
    omega
  visible t c hc := by
    rw [andThen, List.take_add] at hc
    rcases List.mem_append.mp hc with hc | hc
    · exact hf.visible t c hc
    · exact hg.visible _ c hc
  take t n h := by
    rw [andThen] at h
    rw [andThen, hf.take t n (by omega), hg.drop_take h]
    rfl

theorem counts_orElse (hf : Counts f) (hg : Counts g) : Counts (orElse f g) where
  le_length t := by
    rw [orElse]
    split
    · exact hg.le_length t
    · exact hf.le_length t
  visible t c hc := by
    rw [orElse] at hc
    split at hc
    · exact hg.visible t c hc
    · exact hf.visible t c hc
  take t n h := by
    rw [orElse] at h ⊢
    rw [orElse]
    split at h
    · next hzero => rw [hf.take t n (by omega), if_pos hzero, if_pos hzero, hg.take t n h]
    · next hne => rw [hf.take t n h, if_neg hne, if_neg hne]

/-! ## The parts of a number -/

section Visible

variable {c : Char}

/-- What is between visible characters is visible. -/
theorem isVisible_of_between (low high : Char) (hlow : isVisible low = true) (hhigh : isVisible high = true)
    (h : low ≤ c ∧ c ≤ high) : isVisible c = true := by
  simp only [isVisible, Bool.and_eq_true, decide_eq_true_eq] at hlow hhigh ⊢
  have habove : low.toNat ≤ c.toNat := UInt32.le_iff_toNat_le.mp h.1
  have hbelow : c.toNat ≤ high.toNat := UInt32.le_iff_toNat_le.mp h.2
  omega

theorem isVisible_of_beq {d : Char} (hd : isVisible d = true) (h : (c == d) = true) : isVisible c = true := by
  rw [beq_iff_eq.mp h]
  exact hd

theorem isVisible_of_isDigit (h : c.isDigit = true) : isVisible c = true := by
  rw [Char.isDigit, Bool.and_eq_true, decide_eq_true_eq, decide_eq_true_eq] at h
  exact isVisible_of_between '0' '9' (by decide) (by decide) h

theorem isVisible_of_isDigitOrSeparator (h : isDigitOrSeparator c = true) : isVisible c = true := by
  rw [isDigitOrSeparator, Bool.or_eq_true, beq_iff_eq] at h
  rcases h with h | rfl
  · exact isVisible_of_isDigit h
  · decide

theorem isVisible_of_isHexOrSeparator (h : isHexOrSeparator c = true) : isVisible c = true := by
  simp only [isHexOrSeparator, Bool.or_eq_true, Bool.and_eq_true, decide_eq_true_eq, beq_iff_eq] at h
  rcases h with ((h | h) | h) | rfl
  · exact isVisible_of_isDigit h
  · exact isVisible_of_between 'a' 'f' (by decide) (by decide) h
  · exact isVisible_of_between 'A' 'F' (by decide) (by decide) h
  · decide

/-- A character is visible if it is in lower case. -/
theorem isVisible_of_toLower (h : isVisible c.toLower = true) : isVisible c = true := by
  by_cases hupper : c.val ≥ 'A'.val ∧ c.val ≤ 'Z'.val
  · exact isVisible_of_between 'A' 'Z' (by decide) (by decide) hupper
  · have hlower : c.toLower = c := dif_neg hupper
    rwa [hlower] at h

theorem isVisible_of_isEither {lower : Char} (hlower : isVisible lower = true) (h : isEither lower c = true) :
    isVisible c = true := by
  refine isVisible_of_toLower ?_
  rw [beq_iff_eq.mp h]
  exact hlower

end Visible

theorem countWhile_cons_of_pos {c : Char} (hc : p c = true) (t : Text) :
    countWhile p (c :: t) = countWhile p t + 1 := by
  rw [countWhile, List.takeWhile_cons_of_pos hc]
  rfl

theorem isDigitOrSeparator_of_isDigit {c : Char} (hc : c.isDigit = true) : isDigitOrSeparator c = true := by
  rw [isDigitOrSeparator, hc, Bool.true_or]

theorem exponentDigits_eq (t : Text) :
    exponentDigits t = led Char.isDigit 0 (countWhile isDigitOrSeparator) t := by
  cases t with
  | nil => rfl
  | cons c t =>
      rw [exponentDigits, led_zero]
      by_cases hc : c.isDigit = true
      · rw [if_pos hc, if_pos hc, countWhile_cons_of_pos (isDigitOrSeparator_of_isDigit hc)]
      · rw [if_neg hc, if_neg hc]

theorem fractionLength_eq (t : Text) : fractionLength t = led (· == '.') 1 exponentDigits t := by
  unfold fractionLength
  split
  · next c t =>
      rw [led, exponentDigits]
      by_cases hc : c.isDigit = true
      · have hsome : 1 ≤ countWhile isDigitOrSeparator (c :: t) := by
          rw [countWhile_cons_of_pos (isDigitOrSeparator_of_isDigit hc)]
          exact Nat.le_add_left 1 _
        rw [if_pos hc, if_pos hc, if_pos ⟨rfl, hsome⟩, Nat.add_comm]
      · rw [if_neg hc, if_neg hc]
        rfl
  · next hother =>
      refine (of_not_not fun h => ?_ : led (· == '.') 1 exponentDigits t = 0).symm
      obtain ⟨c, d, u, rfl, hc⟩ := exists_of_led_one rfl h
      exact hother d u (by rw [beq_iff_eq.mp hc])

/-- The letter of an exponent. -/
def isExponentLetter (c : Char) : Bool := c == 'e' || c == 'E'

/-- The sign of an exponent. -/
def isSign (c : Char) : Bool := c == '+' || c == '-'

/-- The digits of an exponent, perhaps behind a sign. -/
def signedDigits : Text → Nat := orElse exponentDigits (led isSign 1 exponentDigits)

theorem signedDigits_of_isSign {s : Char} (hs : isSign s = true) (t : Text) :
    signedDigits (s :: t) = if 1 ≤ exponentDigits t then exponentDigits t + 1 else 0 := by
  have hdigit : ¬ s.isDigit = true := by
    rw [isSign, Bool.or_eq_true, beq_iff_eq, beq_iff_eq] at hs
    rcases hs with rfl | rfl
    · decide
    · decide
  have hnone : exponentDigits (s :: t) = 0 := by rw [exponentDigits, if_neg hdigit]
  rw [signedDigits, orElse, if_pos hnone, led]
  simp only [hs, true_and]

theorem signedDigits_of_not_isSign {s : Char} (hs : ¬ isSign s = true) (t : Text) :
    signedDigits (s :: t) = exponentDigits (s :: t) := by
  have hnone : led isSign 1 exponentDigits (s :: t) = 0 := by rw [led, if_neg (fun h => hs h.1)]
  rw [signedDigits, orElse, hnone]
  exact ite_eq_right_iff.mpr Eq.symm

theorem exponentLength_eq (t : Text) : exponentLength t = led isExponentLetter 1 signedDigits t := by
  cases t with
  | nil => rfl
  | cons c t =>
      rw [exponentLength.eq_def, led]
      dsimp only
      by_cases hc : isExponentLetter c = true
      · rw [← isExponentLetter, if_pos hc]
        simp only [hc, true_and]
        cases t with
        | nil => rfl
        | cons s u =>
            dsimp only
            by_cases hs : isSign s = true
            · rw [← isSign, if_pos hs, signedDigits_of_isSign hs]
              by_cases hu : exponentDigits u = 0
              · simp [hu]
              · have hsome : 1 ≤ exponentDigits u := Nat.one_le_iff_ne_zero.mpr hu
                rw [if_neg hu, if_pos hsome, if_pos (Nat.le_add_left 1 _), Nat.add_comm]
            · rw [← isSign, if_neg hs, signedDigits_of_not_isSign hs]
              split <;> split <;> omega
      · rw [← isExponentLetter, if_neg hc, if_neg (fun h => hc h.1)]

/-- A letter in either case, and perhaps another one behind it. -/
def paired (first second : Char) : Text → Nat := led (isEither first) 0 (led (isEither second) 0 nothing)

theorem pairedSuffixLength_eq (second : Char) (t : Text) :
    pairedSuffixLength second t = led (isEither second) 0 nothing t + 1 := by
  cases t with
  | nil => rfl
  | cons d t =>
      rw [pairedSuffixLength, led_zero]
      by_cases hd : isEither second d = true
      · rw [if_pos hd, if_pos hd]
        rfl
      · rw [if_neg hd, if_neg hd]

theorem integerSuffixLength_eq (t : Text) : integerSuffixLength t = orElse (paired 'u' 'l') (paired 'l' 'u') t := by
  cases t with
  | nil => rfl
  | cons c t =>
      rw [integerSuffixLength, pairedSuffixLength_eq, pairedSuffixLength_eq, orElse, paired, paired, led_zero,
        led_zero]
      by_cases hu : isEither 'u' c = true
      · rw [if_pos hu, if_pos hu, if_neg (Nat.succ_ne_zero _)]
      · rw [if_neg hu, if_neg hu, if_pos rfl]

theorem counts_exponentDigits : Counts exponentDigits := by
  rw [funext exponentDigits_eq]
  exact counts_led (counts_countWhile fun _ => isVisible_of_isDigitOrSeparator) fun _ => isVisible_of_isDigit

theorem counts_fractionLength : Counts fractionLength := by
  rw [funext fractionLength_eq]
  exact counts_led counts_exponentDigits fun _ => isVisible_of_beq (by decide)

theorem counts_exponentLength : Counts exponentLength := by
  rw [funext exponentLength_eq]
  have hsign : ∀ c, isSign c = true → isVisible c = true := by
    intro c hc
    rw [isSign, Bool.or_eq_true] at hc
    exact hc.elim (isVisible_of_beq (by decide)) (isVisible_of_beq (by decide))
  refine counts_led (counts_orElse counts_exponentDigits (counts_led counts_exponentDigits hsign)) ?_
  intro c hc
  rw [isExponentLetter, Bool.or_eq_true] at hc
  exact hc.elim (isVisible_of_beq (by decide)) (isVisible_of_beq (by decide))

theorem counts_paired {first second : Char} (hfirst : isVisible first = true) (hsecond : isVisible second = true) :
    Counts (paired first second) :=
  counts_led (counts_led counts_nothing fun _ => isVisible_of_isEither hsecond)
    fun _ => isVisible_of_isEither hfirst

theorem counts_integerSuffixLength : Counts integerSuffixLength := by
  rw [funext integerSuffixLength_eq]
  exact counts_orElse (counts_paired (by decide) (by decide)) (counts_paired (by decide) (by decide))

/-! ## Numbers -/

/-- The characters of a decimal number in front of its exponent. -/
def mantissaLength : Text → Nat := andThen (countWhile isDigitOrSeparator) fractionLength

/-- The characters of a decimal number in front of its suffix. -/
def decimalLength : Text → Nat := andThen mantissaLength exponentLength

/-- The characters of a suffix that makes a number real. -/
def realSuffixLength : Text → Nat := led isRealSuffix 0 nothing

/-- A decimal number is real if it has a fraction, an exponent or such a suffix. -/
def isReal (t : Text) : Bool :=
  fractionLength (t.drop (countWhile isDigitOrSeparator t)) != 0 ||
    exponentLength (t.drop (mantissaLength t)) != 0 || realSuffixLength (t.drop (decimalLength t)) != 0

/-- The characters of a number with a radix in front; none if there is no such number. -/
def radixLength : Text → Nat :=
  led (· == '0') 1 (led (fun c => isEither 'x' c || isEither 'b' c) 0
    (andThen (countWhile isHexOrSeparator) integerSuffixLength))

theorem radixNumber?_eq (t : Text) :
    radixNumber? t = if radixLength t = 0 then none else some ⟨.integer, radixLength t⟩ := by
  unfold radixNumber?
  split
  · next c u =>
      by_cases hc : (isEither 'x' c || isEither 'b' c) = true
      · have hlength : radixLength ('0' :: c :: u) = 2 + countWhile isHexOrSeparator u +
            integerSuffixLength (u.drop (countWhile isHexOrSeparator u)) := by
          rw [radixLength, led, led_zero, if_pos hc, if_pos ⟨rfl, Nat.le_add_left 1 _⟩, andThen]
          omega
        rw [if_pos hc, hlength, if_neg (by omega)]
      · have hnone : radixLength ('0' :: c :: u) = 0 := by
          rw [radixLength, led, led_zero, if_neg hc]
          rfl
        rw [if_neg hc, if_pos hnone]
  · next hother =>
      have hnone : radixLength t = 0 := by
        refine of_not_not fun h => ?_
        obtain ⟨z, c, u, rfl, hz⟩ := exists_of_led_one rfl h
        exact hother c u (by rw [beq_iff_eq.mp hz])
      rw [if_pos hnone]

/-- Without such a suffix, a decimal number is real if it has a fraction or an exponent. -/
theorem isReal_of_no_suffix (h : realSuffixLength (t.drop (decimalLength t)) = 0) :
    isReal t = (fractionLength (t.drop (countWhile isDigitOrSeparator t)) != 0 ||
      exponentLength (t.drop (mantissaLength t)) != 0) := by
  rw [isReal, h]
  exact Bool.or_false _

theorem decimalNumber_eq (t : Text) :
    decimalNumber t =
      ⟨if isReal t then .real else .integer,
        andThen decimalLength (orElse realSuffixLength integerSuffixLength) t⟩ := by
  unfold decimalNumber
  dsimp only
  split
  · next c rest hrest =>
      have hdrop : t.drop (decimalLength t) = c :: rest := hrest
      by_cases hc : isRealSuffix c = true
      · have hsuffix : realSuffixLength (t.drop (decimalLength t)) = 1 := by
          rw [hdrop, realSuffixLength, led_zero, if_pos hc]
          rfl
        have hreal : isReal t = true := by
          rw [isReal, hsuffix]
          exact Bool.or_true _
        rw [if_pos hc, if_pos hreal, andThen, orElse, hsuffix]
        rfl
      · have hsuffix : realSuffixLength (t.drop (decimalLength t)) = 0 := by
          rw [hdrop, realSuffixLength, led_zero, if_neg hc]
        rw [if_neg hc, isReal_of_no_suffix hsuffix, andThen, orElse, hsuffix, hdrop]
        rfl
  · next hrest =>
      have hdrop : t.drop (decimalLength t) = [] := hrest
      have hsuffix : realSuffixLength (t.drop (decimalLength t)) = 0 := by
        rw [hdrop]
        rfl
      rw [isReal_of_no_suffix hsuffix, andThen, orElse, hsuffix, hdrop]
      rfl

/-- The characters of a number. -/
def numberLength : Text → Nat :=
  orElse radixLength (andThen decimalLength (orElse realSuffixLength integerSuffixLength))

theorem counts_mantissaLength : Counts mantissaLength :=
  counts_andThen (counts_countWhile fun _ => isVisible_of_isDigitOrSeparator) counts_fractionLength

theorem counts_decimalLength : Counts decimalLength := counts_andThen counts_mantissaLength counts_exponentLength

theorem counts_realSuffixLength : Counts realSuffixLength := by
  refine counts_led counts_nothing fun c hc => ?_
  simp only [isRealSuffix, Bool.or_eq_true] at hc
  rcases hc with (hc | hc) | hc
  · exact isVisible_of_isEither (by decide) hc
  · exact isVisible_of_isEither (by decide) hc
  · exact isVisible_of_isEither (by decide) hc

theorem counts_radixLength : Counts radixLength := by
  have hdigits : Counts (andThen (countWhile isHexOrSeparator) integerSuffixLength) :=
    counts_andThen (counts_countWhile fun _ => isVisible_of_isHexOrSeparator) counts_integerSuffixLength
  refine counts_led (counts_led hdigits fun c hc => ?_) fun _ => isVisible_of_beq (by decide)
  rw [Bool.or_eq_true] at hc
  exact hc.elim (isVisible_of_isEither (by decide)) (isVisible_of_isEither (by decide))

theorem counts_numberLength : Counts numberLength :=
  counts_orElse counts_radixLength
    (counts_andThen counts_decimalLength (counts_orElse counts_realSuffixLength counts_integerSuffixLength))

theorem number_eq (t : Text) :
    number t = ⟨if radixLength t = 0 ∧ isReal t = true then .real else .integer, numberLength t⟩ := by
  rw [number, radixNumber?_eq, numberLength, orElse]
  by_cases hradix : radixLength t = 0
  · simp only [hradix, if_true, true_and]
    exact decimalNumber_eq t
  · simp only [hradix, if_false, false_and]
    rfl

theorem count_number (t : Text) : (number t).count = numberLength t := by rw [number_eq]

/-- What makes a number real is a part of it. -/
theorem isReal_take (h : decimalLength t + realSuffixLength (t.drop (decimalLength t)) ≤ n) :
    isReal (t.take n) = isReal t := by
  have hmantissa : mantissaLength t = countWhile isDigitOrSeparator t +
      fractionLength (t.drop (countWhile isDigitOrSeparator t)) := rfl
  have hdecimal : decimalLength t = mantissaLength t + exponentLength (t.drop (mantissaLength t)) := rfl
  rw [isReal, isReal, countWhile_take (by omega), counts_mantissaLength.take t n (by omega),
    counts_decimalLength.take t n (by omega), counts_fractionLength.drop_take (by omega),
    counts_exponentLength.drop_take (by omega), counts_realSuffixLength.drop_take h]

/-- A number is the same in each beginning of the text that has it. -/
theorem number_take (h : numberLength t ≤ n) : number (t.take n) = number t := by
  have hradix : radixLength (t.take n) = radixLength t :=
    counts_radixLength.take t n (Nat.le_trans (le_orElse _ _ t) h)
  rw [number_eq, number_eq, counts_numberLength.take t n h, hradix]
  by_cases hnone : radixLength t = 0
  · rw [numberLength, orElse, if_pos hnone, andThen] at h
    have hsuffix := le_orElse realSuffixLength integerSuffixLength (t.drop (decimalLength t))
    rw [isReal_take (by omega)]
  · simp only [hnone, false_and]

/-! ## Where a number starts -/

/-- What a number starts with: a digit, or a fraction. -/
def startLength : Text → Nat := orElse (led Char.isDigit 0 nothing) fractionLength

theorem counts_startLength : Counts startLength :=
  counts_orElse (counts_led counts_nothing fun _ => isVisible_of_isDigit) counts_fractionLength

theorem startsNumber_eq (t : Text) : startsNumber t = (startLength t != 0) := by
  unfold startsNumber
  split
  · next d t =>
      have hdot : led Char.isDigit 0 nothing ('.' :: d :: t) = 0 := by rw [led_zero, if_neg (by decide)]
      rw [startLength, orElse, if_pos hdot, fractionLength]
      by_cases hd : d.isDigit = true
      · rw [if_pos hd, hd, Nat.add_comm]
        rfl
      · rw [if_neg hd, Bool.eq_false_iff.mpr hd]
        rfl
  · next c t hother =>
      rw [startLength, orElse, led_zero]
      by_cases hc : c.isDigit = true
      · rw [if_pos hc, hc]
        rfl
      · have hnone : fractionLength (c :: t) = 0 := by
          rw [fractionLength_eq]
          refine of_not_not fun h => ?_
          obtain ⟨dot, d, u, ht, hdot⟩ := exists_of_led_one rfl h
          obtain ⟨rfl, rfl⟩ := List.cons.inj ht
          exact hother d u (beq_iff_eq.mp hdot) rfl
        rw [if_neg hc, if_pos rfl, hnone, Bool.eq_false_iff.mpr hc]
        rfl
  · rfl

theorem startLength_cons_of_isDigit {c : Char} (hc : c.isDigit = true) (t : Text) : startLength (c :: t) = 1 := by
  rw [startLength, orElse, led_zero, if_pos hc]
  rfl

theorem startLength_le_mantissaLength (t : Text) : startLength t ≤ mantissaLength t := by
  by_cases hdot : fractionLength t = 0
  · cases t with
    | nil => exact Nat.le_refl _
    | cons c t =>
        by_cases hc : c.isDigit = true
        · rw [startLength_cons_of_isDigit hc, mantissaLength, andThen,
            countWhile_cons_of_pos (isDigitOrSeparator_of_isDigit hc)]
          omega
        · rw [startLength, orElse, led_zero, if_neg hc, if_pos rfl, hdot]
          exact Nat.zero_le _
  · rw [fractionLength_eq] at hdot
    obtain ⟨c, d, t, rfl, hc⟩ := exists_of_led_one rfl hdot
    obtain rfl : c = '.' := beq_iff_eq.mp hc
    exact Nat.le_of_eq (Nat.zero_add _).symm

/-- What a number starts with is a part of it. -/
theorem startLength_le (t : Text) : startLength t ≤ numberLength t := by
  rw [numberLength, orElse]
  split
  · have hmantissa := startLength_le_mantissaLength t
    rw [andThen, decimalLength, andThen]
    omega
  · next hradix =>
      obtain ⟨z, c, u, rfl, hz⟩ := exists_of_led_one rfl hradix
      obtain rfl : z = '0' := beq_iff_eq.mp hz
      rw [startLength_cons_of_isDigit (by decide)]
      exact Nat.one_le_iff_ne_zero.mpr hradix

/-! ## Numbers in bytes -/

/-- The bytes of a text, each as a character. -/
def octets (t : Text) : Text := (bytes t).map Char.ofUInt8

theorem toNat_ofUInt8 (b : UInt8) : (Char.ofUInt8 b).toNat = b.toNat := rfl

theorem octets_cons (c : Char) (t : Text) :
    octets (c :: t) = (String.utf8EncodeChar c).map Char.ofUInt8 ++ octets t := by
  rw [octets, bytes_cons, List.map_append]
  rfl

theorem octets_cons_of_lt {c : Char} (hc : c.toNat < 128) (t : Text) : octets (c :: t) = c :: octets t := by
  have hbyte : Char.ofUInt8 c.val.toUInt8 = c := by
    refine Char.toNat_inj.mp ?_
    have hval : c.val.toNat < 128 := hc
    rw [toNat_ofUInt8, UInt32.toNat_toUInt8]
    exact Nat.mod_eq_of_lt (by omega)
  rw [octets_cons, utf8EncodeChar_of_lt hc, List.map_singleton, hbyte]
  rfl

theorem lt_of_isVisible {c : Char} (hc : isVisible c = true) : c.toNat < 128 := by
  rw [isVisible, Bool.and_eq_true, decide_eq_true_eq, decide_eq_true_eq] at hc
  omega

/-- As far as the characters of a text are visible, they are its bytes. -/
theorem takeWhile_octets (t : Text) : (octets t).takeWhile isVisible = t.takeWhile isVisible := by
  induction t with
  | nil => rfl
  | cons c t ih =>
      by_cases hshort : c.toNat < 128
      · rw [octets_cons_of_lt hshort, List.takeWhile_cons, List.takeWhile_cons, ih]
      · have hhidden : ¬ isVisible c = true := fun hc => hshort (lt_of_isVisible hc)
        rw [octets_cons, List.takeWhile_cons_of_neg hhidden]
        cases hbytes : String.utf8EncodeChar c with
        | nil => exact absurd hbytes String.utf8EncodeChar_ne_nil
        | cons b bs =>
            have habove : 128 ≤ b.toNat :=
              le_of_mem_utf8EncodeChar (Nat.le_of_not_lt hshort) (hbytes ▸ List.mem_cons_self)
            refine List.takeWhile_cons_of_neg fun hb => ?_
            have hlt := lt_of_isVisible hb
            rw [toNat_ofUInt8] at hlt
            omega

/-- What is counted is not more than the visible characters at the front of the text. -/
theorem Counts.le_takeWhile (hf : Counts f) (t : Text) : f t ≤ (t.takeWhile isVisible).length := by
  have hall : (t.take (f t)).takeWhile isVisible = t.take (f t) :=
    List.takeWhile_eq_self_iff.mpr (hf.visible t)
  have hlength := List.length_take_of_le (hf.le_length t)
  rw [← List.take_takeWhile] at hall
  rw [← hlength, ← hall]
  exact List.length_take_le' _ _

theorem number_takeWhile (t : Text) : number (t.takeWhile isVisible) = number t := by
  rw [List.prefix_iff_eq_take.mp (List.takeWhile_prefix (l := t) isVisible)]
  exact number_take (counts_numberLength.le_takeWhile t)

/-- A number is the same in the bytes of a text as in its characters. -/
theorem number_octets (t : Text) : number (octets t) = number t := by
  rw [← number_takeWhile, takeWhile_octets, number_takeWhile]

/-- An exponent without digits is no part of a number, and no byte of a character beyond ASCII is. -/
example : number (octets "1_0.5e+é5") = ⟨.real, 5⟩ := by decide +kernel

/-! ## Lexemes -/

/-- How the lexeme at the front of a text is found: as the first of four kinds. -/
inductive IsLead : Text → Lexeme → Prop where
  | identifier {c : Char} {t : Text} (starts : startsIdentifier c = true) :
      IsLead (c :: t) ⟨.identifier, countWhile continuesIdentifier (c :: t)⟩
  | number {c : Char} {t : Text} (word : startsIdentifier c = false) (starts : startsNumber (c :: t) = true) :
      IsLead (c :: t) (number (c :: t))
  | symbol {c : Char} {t : Text} {s : Symbol} (word : startsIdentifier c = false)
      (digits : startsNumber (c :: t) = false) (found : Symbol.lead? (c :: t) = some s) :
      IsLead (c :: t) ⟨.symbol s, s.spelling.length⟩
  | unknown {c : Char} {t : Text} (word : startsIdentifier c = false) (digits : startsNumber (c :: t) = false)
      (missing : Symbol.lead? (c :: t) = none) : IsLead (c :: t) ⟨.unknown, 1⟩

variable {l : Lexeme}

theorem isLead_of_lead? (h : lead? t = some l) : IsLead t l := by
  cases t with
  | nil => exact nomatch h
  | cons c t =>
      rw [lead?] at h
      split at h
      · next starts =>
          rw [← Option.some.inj h]
          exact .identifier starts
      · next word =>
          have word := Bool.eq_false_iff.mpr word
          split at h
          · next starts =>
              rw [← Option.some.inj h]
              exact .number word starts
          · next digits =>
              have digits := Bool.eq_false_iff.mpr digits
              split at h
              · next s found =>
                  rw [← Option.some.inj h]
                  exact .symbol word digits found
              · next missing =>
                  rw [← Option.some.inj h]
                  exact .unknown word digits missing

theorem IsLead.lead? (h : IsLead t l) : lead? t = some l := by
  cases h with
  | identifier starts => rw [Lexeme.lead?, if_pos starts]
  | number word starts => rw [Lexeme.lead?, if_neg (Bool.eq_false_iff.mp word), if_pos starts]
  | symbol word digits found =>
      rw [Lexeme.lead?, if_neg (Bool.eq_false_iff.mp word), if_neg (Bool.eq_false_iff.mp digits), found]
  | unknown word digits missing =>
      rw [Lexeme.lead?, if_neg (Bool.eq_false_iff.mp word), if_neg (Bool.eq_false_iff.mp digits), missing]

theorem exists_lead? (c : Char) (t : Text) : ∃ l, Lexeme.lead? (c :: t) = some l := by
  rw [Lexeme.lead?]
  split
  · exact ⟨_, rfl⟩
  · split
    · exact ⟨_, rfl⟩
    · split
      · exact ⟨_, rfl⟩
      · exact ⟨_, rfl⟩

/-- A symbol at the front of a text is spelled there. -/
theorem isPrefix_spelling {s : Symbol} (h : Symbol.lead? t = some s) : s.spelling <+: t := by
  rw [Symbol.lead?] at h
  have hs : s.spelling.isPrefixOf t = true := List.find?_some (p := fun s : Symbol => s.spelling.isPrefixOf t) h
  exact List.isPrefixOf_iff_prefix.mp hs

theorem isVisible_of_mem_spelling (s : Symbol) : ∀ c ∈ s.spelling, isVisible c = true := by
  have hall : s.spelling.all isVisible = true := by cases s <;> decide
  exact List.all_eq_true.mp hall

theorem spelling_length_pos (s : Symbol) : 0 < s.spelling.length := by
  cases s <;> decide

/-- What is spelled at the front of a beginning of a text is spelled at the front of the text. -/
theorem isPrefixOf_of_take {s : Symbol} (h : s.spelling.isPrefixOf (t.take n) = true) :
    s.spelling.isPrefixOf t = true := by
  rw [List.isPrefixOf_iff_prefix] at h ⊢
  exact (List.prefix_take_iff.mp h).1

/-- The longest symbol of a text is the longest one of each beginning of the text that has it. -/
theorem symbol_take {s : Symbol} (h : Symbol.lead? t = some s) (hn : s.spelling.length ≤ n) :
    Symbol.lead? (t.take n) = some s := by
  have hspelled : s.spelling.isPrefixOf (t.take n) = true :=
    List.isPrefixOf_iff_prefix.mpr (List.prefix_take_iff.mpr ⟨isPrefix_spelling h, hn⟩)
  rw [Symbol.lead?, List.find?_eq_some_iff_append] at h ⊢
  obtain ⟨-, before, after, hall, hbefore⟩ := h
  refine ⟨hspelled, before, after, hall, fun a ha => ?_⟩
  have hmissing := hbefore a ha
  rw [Bool.not_eq_true'] at hmissing ⊢
  exact Bool.eq_false_iff.mpr fun hpart => Bool.eq_false_iff.mp hmissing (isPrefixOf_of_take hpart)

/-- A text that starts with no symbol has no beginning that starts with one. -/
theorem symbol_take_of_none (h : Symbol.lead? t = none) (n : Nat) : Symbol.lead? (t.take n) = none := by
  rw [Symbol.lead?, List.find?_eq_none] at h ⊢
  exact fun s hs hpart => h s hs (isPrefixOf_of_take hpart)

theorem continuesIdentifier_of_startsIdentifier {c : Char} (h : startsIdentifier c = true) :
    continuesIdentifier c = true := by
  rw [continuesIdentifier, ← startsIdentifier, h, Bool.true_or]

/-- A lexeme takes something of its text, and not more than there is. -/
theorem IsLead.bounds (h : IsLead t l) : 0 < l.count ∧ l.count ≤ t.length := by
  cases h with
  | identifier starts =>
      refine ⟨?_, (List.takeWhile_prefix _).length_le⟩
      rw [countWhile_cons_of_pos (continuesIdentifier_of_startsIdentifier starts)]
      exact Nat.succ_pos _
  | number word starts =>
      rw [count_number]
      rw [startsNumber_eq, bne_iff_ne] at starts
      exact ⟨Nat.lt_of_lt_of_le (Nat.pos_of_ne_zero starts) (startLength_le _), counts_numberLength.le_length _⟩
  | symbol word digits found => exact ⟨spelling_length_pos _, (isPrefix_spelling found).length_le⟩
  | unknown word digits missing => exact ⟨Nat.one_pos, Nat.le_add_left 1 _⟩

/-- The lexeme at the front of a text is at the front of each beginning of the text that has it. -/
theorem IsLead.take (h : IsLead t l) (hn : l.count ≤ n) : IsLead (t.take n) l := by
  have hpos := h.bounds.1
  obtain ⟨k, rfl⟩ : ∃ k, n = k + 1 := Nat.exists_eq_add_of_le' (by omega)
  have hdigits {c : Char} {u : Text} (hstart : startLength (c :: u) ≤ k + 1) :
      startsNumber (c :: u.take k) = startsNumber (c :: u) := by
    rw [startsNumber_eq, startsNumber_eq, ← List.take_succ_cons, counts_startLength.take _ _ hstart]
  have hnone {c : Char} {u : Text} (digits : startsNumber (c :: u) = false) : startLength (c :: u) ≤ k + 1 := by
    rw [startsNumber_eq, bne_eq_false_iff_eq] at digits
    rw [digits]
    exact Nat.zero_le _
  cases h with
  | @identifier c u starts =>
      rw [← countWhile_take hn, List.take_succ_cons]
      exact .identifier starts
  | @number c u word starts =>
      rw [count_number] at hn
      rw [← number_take hn, List.take_succ_cons]
      exact .number word (by rw [hdigits (Nat.le_trans (startLength_le _) hn), starts])
  | @symbol c u s word digits found =>
      have hfound := symbol_take found hn
      rw [List.take_succ_cons] at hfound ⊢
      exact .symbol word (by rw [hdigits (hnone digits), digits]) hfound
  | @unknown c u word digits missing =>
      have hmissing := symbol_take_of_none missing (k + 1)
      rw [List.take_succ_cons] at hmissing ⊢
      exact .unknown word (by rw [hdigits (hnone digits), digits]) hmissing

/-! ## Lexemes in bytes -/

/-- The kind of the lexeme at the front of a text and the number of its bytes. A number is read in the bytes of
    the text, an identifier goes up to the offset of the first character that does not belong to it, and a symbol
    has a byte for each of its characters. -/
def leadBytes? (t : Text) : Option (LexemeKind × Nat) :=
  match t with
  | [] => none
  | c :: _ =>
    if startsIdentifier c then some (.identifier, Text.size (t.takeWhile continuesIdentifier))
    else if startsNumber t then some ((number (octets t)).kind, (number (octets t)).count)
    else
      match Symbol.lead? t with
      | some s => some (.symbol s, s.spelling.length)
      | none => some (.unknown, c.utf8Size)

theorem size_of_isVisible {u : Text} (h : ∀ c ∈ u, isVisible c = true) : Text.size u = u.length := by
  induction u with
  | nil => rfl
  | cons c u ih =>
      obtain ⟨hc, hu⟩ := List.forall_mem_cons.mp h
      have hbyte : c.utf8Size = 1 := by
        rw [← String.length_utf8EncodeChar, utf8EncodeChar_of_lt (lt_of_isVisible hc)]
        rfl
      rw [size_cons, List.length_cons, hbyte, ih hu, Nat.add_comm]

/-- Reading a text by its bytes finds the same lexeme, and the bytes of it. -/
theorem IsLead.leadBytes? (h : IsLead t l) : leadBytes? t = some (l.kind, Text.size (t.take l.count)) := by
  cases h with
  | @identifier c u starts =>
      rw [Lexeme.leadBytes?, if_pos starts, countWhile, ← List.prefix_iff_eq_take.mp (List.takeWhile_prefix _)]
  | @number c u word starts =>
      have hsize : Text.size ((c :: u).take (Lexeme.number (c :: u)).count) = (Lexeme.number (c :: u)).count := by
        rw [count_number, size_of_isVisible (counts_numberLength.visible _),
          List.length_take_of_le (counts_numberLength.le_length _)]
      rw [Lexeme.leadBytes?, if_neg (Bool.eq_false_iff.mp word), if_pos starts, number_octets, hsize]
  | @symbol c u s word digits found =>
      rw [Lexeme.leadBytes?, if_neg (Bool.eq_false_iff.mp word), if_neg (Bool.eq_false_iff.mp digits), found]
      dsimp only
      rw [← List.prefix_iff_eq_take.mp (isPrefix_spelling found), size_of_isVisible (isVisible_of_mem_spelling s)]
  | @unknown c u word digits missing =>
      rw [Lexeme.leadBytes?, if_neg (Bool.eq_false_iff.mp word), if_neg (Bool.eq_false_iff.mp digits), missing]
      rfl

/-- A text that is not empty starts with a lexeme. It takes something of the text, not more than there is, and
    ends between two characters; read again by itself it is the same lexeme, in characters and in bytes; and it
    is what the token takes that is made of it. -/
theorem lead?_stable (c : Char) (rest : Text) :
    ∃ l n u v, lead? (c :: rest) = some l ∧ leadBytes? (c :: rest) = some (l.kind, n) ∧ 0 < n ∧
      n ≤ Text.size (c :: rest) ∧ splitAtByte? n (c :: rest) = some (u, v) ∧ u.length = l.count ∧
      lead? u = some l ∧ leadBytes? u = some (l.kind, n) ∧
      (CSharp.lexeme (c :: rest)).kind = CSharp.lexemeKind l.kind u ∧
      c :: rest.take (CSharp.lexeme (c :: rest)).more = u := by
  obtain ⟨l, hl⟩ := exists_lead? c rest
  have hlead := isLead_of_lead? hl
  obtain ⟨hpos, hle⟩ := hlead.bounds
  have hagain := hlead.take (Nat.le_refl l.count)
  generalize hu : (c :: rest).take l.count = u at hagain
  generalize hv : (c :: rest).drop l.count = v
  have htext : c :: rest = u ++ v := by rw [← hu, ← hv, List.take_append_drop]
  have hlength : u.length = l.count := by rw [← hu, List.length_take_of_le hle]
  have hne : u ≠ [] := List.ne_nil_of_length_pos (hlength ▸ hpos)
  have hbytes : leadBytes? u = some (l.kind, Text.size u) := by
    rw [hagain.leadBytes?, ← hlength, List.take_length]
  refine ⟨l, Text.size u, u, v, hl, ?_, size_pos_of_ne_nil hne, ?_, ?_, hlength, hagain.lead?, hbytes, ?_, ?_⟩
  · rw [hlead.leadBytes?, hu]
  · rw [htext, size_append]
    exact Nat.le_add_right _ _
  · rw [htext]
    exact splitAtByte?_append u v
  · rw [CSharp.lexeme, hl, ← hu]
    rfl
  · rw [CSharp.lexeme, hl]
    exact (Cut.take_ofCount hpos).trans hu

end Lexeme

end RazorLang
