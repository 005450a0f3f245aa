import RazorLang.Digest.Basic

/-!
# SHA-1

The digest of 160 bits: eighty rounds over five words for each block of the padded message.
-/

namespace RazorLang.Digest.Sha1

/-- The five words that a block updates. -/
structure State where
  a : UInt32
  b : UInt32
  c : UInt32
  d : UInt32
  e : UInt32

/-- The words before the first block. -/
def initial : State := ⟨0x67452301, 0xEFCDAB89, 0x98BADCFE, 0x10325476, 0xC3D2E1F0⟩

/-- Puts `count` further words in front of a schedule that is kept with its latest word first. -/
def extend : Nat → List UInt32 → List UInt32
  | 0, words => words
  | count + 1, words =>
    match words[2]?, words[7]?, words[13]?, words[15]? with
    | some w3, some w8, some w14, some w16 =>
      extend count (rotateLeft (w3 ^^^ w8 ^^^ w14 ^^^ w16) 1 :: words)
    | _, _, _, _ => words

/-- The eighty words of a block's schedule. -/
def schedule (block : List UInt32) : List UInt32 := (extend 64 block.reverse).reverse

/-- The mixing function and the constant of a round. -/
def mix (round : Nat) (b c d : UInt32) : UInt32 × UInt32 :=
  if round < 20 then ((b &&& c) ||| (~~~b &&& d), 0x5A827999)
  else if round < 40 then (b ^^^ c ^^^ d, 0x6ED9EBA1)
  else if round < 60 then ((b &&& c) ||| (b &&& d) ||| (c &&& d), 0x8F1BBCDC)
  else (b ^^^ c ^^^ d, 0xCA62C1D6)

/-- The rounds over the words of a schedule, counted from `round`. -/
def rounds (round : Nat) (s : State) : List UInt32 → State
  | [] => s
  | w :: words =>
    let (f, k) := mix round s.b s.c s.d
    rounds (round + 1) ⟨rotateLeft s.a 5 + f + s.e + k + w, s.a, rotateLeft s.b 30, s.c, s.d⟩ words

/-- Takes one block into the state. -/
def absorb (s : State) (block : List UInt32) : State :=
  let r := rounds 0 s (schedule block)
  ⟨s.a + r.a, s.b + r.b, s.c + r.c, s.d + r.d, s.e + r.e⟩

/-- The twenty bytes of a message's digest. -/
def digest (message : List UInt8) : List UInt8 :=
  let s := (blocks message).foldl absorb initial
  bytesOf [s.a, s.b, s.c, s.d, s.e]

end RazorLang.Digest.Sha1
