import RazorLang.Text.Alphabetic
import RazorLang.Text.Numeric

/-!
# Text as a list of characters

Everything the library reads and writes is a `Text`, a list of characters, so that lexing, parsing and
generation are plain recursion on lists. Offsets and lengths are counted in UTF-8 bytes:

* `size` — the number of bytes, additive over `++` (`size_append`).
* `splitAtByte?` — cutting at a byte offset, which fails exactly where the offset falls inside a
  character or beyond the end.
* the character classes of Unicode that the two languages are defined with, and ASCII case folding.
-/

namespace RazorLang

/-- A text: its characters in order. -/
abbrev Text := List Char

instance : Coe String Text := ⟨String.toList⟩

namespace Text

/-! ## Bytes -/

/-- Number of bytes of a text in UTF-8. -/
def size : Text → Nat
  | [] => 0
  | c :: t => c.utf8Size + size t

@[simp] theorem size_nil : size [] = 0 := rfl

@[simp] theorem size_cons (c : Char) (t : Text) : size (c :: t) = c.utf8Size + size t := rfl

@[simp] theorem size_append (s t : Text) : size (s ++ t) = size s + size t := by
  induction s with
  | nil => simp
  | cons c s ih => simp only [List.cons_append, size_cons, ih, Nat.add_assoc]

theorem size_pos_of_ne_nil {t : Text} (h : t ≠ []) : 0 < size t := by
  cases t with
  | nil => exact absurd rfl h
  | cons c t => have := Char.utf8Size_pos c; simp only [size_cons]; omega

/-- The two parts of a text around a byte offset; none if the offset is no character boundary. -/
def splitAtByte? : Nat → Text → Option (Text × Text)
  | 0, t => some ([], t)
  | _ + 1, [] => none
  | n + 1, c :: t =>
    if c.utf8Size ≤ n + 1 then
      (splitAtByte? (n + 1 - c.utf8Size) t).map fun (u, v) => (c :: u, v)
    else none

/-- The bytes of a text from `start` up to `stop`; none if either is no character boundary. -/
def slice? (start stop : Nat) (t : Text) : Option Text :=
  if start ≤ stop then do
    let (_, rest) ← splitAtByte? start t
    let (middle, _) ← splitAtByte? (stop - start) rest
    return middle
  else none

/-- The text from a byte offset on; none if the offset is no character boundary. -/
def fromByte? (start : Nat) (t : Text) : Option Text :=
  (splitAtByte? start t).map Prod.snd

/-- The decimal digits of a number. -/
def ofNat (n : Nat) : Text := Nat.toDigits 10 n

/-! ## Character classes -/

/-- Membership of a code point in a list of closed ranges. -/
def inRanges (ranges : List (Nat × Nat)) (n : Nat) : Bool :=
  ranges.any fun (low, high) => low ≤ n && n ≤ high

/-- The Unicode property *White_Space*. -/
def isSpace (c : Char) : Bool :=
  let n := c.toNat
  n == 0x20 || (0x9 ≤ n && n ≤ 0xD) || n == 0x85 || n == 0xA0 || n == 0x1680 ||
    (0x2000 ≤ n && n ≤ 0x200A) || n == 0x2028 || n == 0x2029 || n == 0x202F || n == 0x205F ||
    n == 0x3000

/-- The Unicode property *Alphabetic*. -/
def isLetter (c : Char) : Bool :=
  if c.toNat < 128 then c.isAlpha else inRanges alphabeticRanges c.toNat

/-- The Unicode general categories of numbers. -/
def isNumber (c : Char) : Bool :=
  if c.toNat < 128 then c.isDigit else inRanges numericRanges c.toNat

/-- The characters that break a line of source text. -/
def isLineBreak (c : Char) : Bool := c == '\r' || c == '\n'

/-- White space that does not break a line. -/
def isInlineSpace (c : Char) : Bool := isSpace c && !isLineBreak c

/-! ## Trimming and case -/

/-- Only white space, or nothing at all. -/
def isBlank (t : Text) : Bool := t.all isSpace

/-- The text without its leading white space. -/
def trimStart (t : Text) : Text := t.dropWhile isSpace

/-- The text without the characters at its end that satisfy `p`. -/
def dropEndWhile (p : Char → Bool) (t : Text) : Text := (t.reverse.dropWhile p).reverse

/-- The text without its trailing white space. -/
def trimEnd (t : Text) : Text := dropEndWhile isSpace t

/-- The text without white space at either end. -/
def trim (t : Text) : Text := trimEnd (trimStart t)

/-- ASCII letters in lower case, all else as it is. -/
def toLower (t : Text) : Text := t.map Char.toLower

/-- ASCII letters in upper case, all else as it is. -/
def toUpper (t : Text) : Text := t.map Char.toUpper

/-- Equality up to the case of ASCII letters. -/
def sameIgnoringCase (s t : Text) : Bool := toLower s == toLower t

/-! ## Searching and splitting -/

/-- What follows `lead` in a text that starts with it. -/
def after? (lead : Text) (t : Text) : Option Text :=
  if lead.isPrefixOf t then some (t.drop lead.length) else none

/-- What precedes `tail` in a text that ends with it. -/
def before? (tail : Text) (t : Text) : Option Text :=
  if tail.isSuffixOf t then some (t.take (t.length - tail.length)) else none

/-- The parts of a text before and after the first character that satisfies `p`. -/
def splitFirst? (p : Char → Bool) (t : Text) : Option (Text × Text) :=
  match t.dropWhile (!p ·) with
  | [] => none
  | _ :: rest => some (t.takeWhile (!p ·), rest)

/-- The parts of a text before and after the last character that satisfies `p`. -/
def splitLast? (p : Char → Bool) (t : Text) : Option (Text × Text) :=
  (splitFirst? p t.reverse).map fun (u, v) => (v.reverse, u.reverse)

/-- The pieces of a text between the characters that satisfy `p`; never none. -/
def splitAll (p : Char → Bool) : Text → List Text
  | [] => [[]]
  | c :: t =>
    match splitAll p t with
    | [] => [[c]]
    | piece :: pieces => if p c then [] :: piece :: pieces else (c :: piece) :: pieces

/-- The number of characters before the first place where `part` occurs. -/
def indexOf? (part : Text) : Text → Option Nat
  | [] => if part.isEmpty then some 0 else none
  | c :: t => if part.isPrefixOf (c :: t) then some 0 else (indexOf? part t).map (· + 1)

/-- The order of texts by the code points of their characters, which is that of their bytes. -/
def compare : Text → Text → Ordering
  | [], [] => .eq
  | [], _ :: _ => .lt
  | _ :: _, [] => .gt
  | c :: s, d :: t => (Ord.compare c.toNat d.toNat).then (compare s t)

end Text

end RazorLang
