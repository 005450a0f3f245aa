import RazorLang.Text.Basic

/-!
# Message padding

What the two digests have in common: a message is the bytes of a text, padded to whole blocks of 64
bytes, and a digest is written as hexadecimal digits.
-/

namespace RazorLang

/-- The bytes of a text in UTF-8. -/
def Text.utf8 (t : Text) : List UInt8 := t.flatMap String.utf8EncodeChar

namespace Digest

/-- A number as `count` bytes, the most significant byte first. -/
def bigEndian : Nat → Nat → List UInt8
  | 0, _ => []
  | count + 1, n => UInt8.ofNat (n / 256 ^ count) :: bigEndian count n

/-- A message followed by a one bit, zero bits, and its length in bits as eight bytes: the least
    number of zeros that fills whole blocks of 64 bytes. -/
def padded (message : List UInt8) : List UInt8 :=
  let length := message.length
  let zeros := (119 - length % 64) % 64
  message ++ 0x80 :: List.replicate zeros 0 ++ bigEndian 8 (8 * length)

/-- The 32-bit words of a list of bytes, each with its most significant byte first. -/
def wordsOf : List UInt8 → List UInt32
  | a :: b :: c :: d :: rest =>
    ((a.toUInt32 <<< 24) ||| (b.toUInt32 <<< 16) ||| (c.toUInt32 <<< 8) ||| d.toUInt32) ::
      wordsOf rest
  | _ => []

/-- The blocks of sixteen words of a list whose length is a multiple of sixteen. -/
def blocksOf : Nat → List UInt32 → List (List UInt32)
  | 0, _ => []
  | count + 1, words => words.take 16 :: blocksOf count (words.drop 16)

/-- The blocks of a padded message. -/
def blocks (message : List UInt8) : List (List UInt32) :=
  let words := wordsOf (padded message)
  blocksOf (words.length / 16) words

/-- Rotation of a word to the left. -/
def rotateLeft (x : UInt32) (n : UInt32) : UInt32 := (x <<< n) ||| (x >>> (32 - n))

/-- The bytes of words, each with its most significant byte first. -/
def bytesOf (words : List UInt32) : List UInt8 := words.flatMap fun w => bigEndian 4 w.toNat

/-- Two lower-case hexadecimal digits for each byte. -/
def hexadecimal (bytes : List UInt8) : Text :=
  bytes.flatMap fun b => [Nat.digitChar (b.toNat / 16), Nat.digitChar (b.toNat % 16)]

end Digest

end RazorLang
