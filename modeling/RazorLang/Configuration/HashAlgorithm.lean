import RazorLang.Digest.Sha1
import RazorLang.Digest.Sha256

/-!
# Hash algorithms

The algorithms that a checksum can be asked for. `digest?` and `guid?` are defined on the same
algorithms, SHA-1 and SHA-256; MD5 is known by name only.
-/

namespace RazorLang

/-- The known hash algorithms. -/
inductive HashAlgorithm where
  | sha1
  | sha256
  | md5
  deriving DecidableEq, Repr, Inhabited

namespace HashAlgorithm

/-- All algorithms. -/
def all : List HashAlgorithm := [sha1, sha256, md5]

/-- The algorithm's name. -/
def render : HashAlgorithm → Text
  | sha1 => "SHA1"
  | sha256 => "SHA256"
  | md5 => "MD5"

/-- The algorithm that a text names, in any case and with white space around it. -/
def parse? (t : Text) : Option HashAlgorithm :=
  let wanted := Text.toLower (Text.trim t)
  all.find? fun a => Text.toLower a.render == wanted

/-- The digest of a text. -/
def digest? (t : Text) : HashAlgorithm → Option (List UInt8)
  | sha1 => some (Digest.Sha1.digest t.utf8)
  | sha256 => some (Digest.Sha256.digest t.utf8)
  | md5 => none

/-- The identifier by which a checksum line names the algorithm. -/
def guid? : HashAlgorithm → Option Text
  | sha1 => some "\x7bff1816ec-aa5e-4d10-87f7-6f4963833460\x7d"
  | sha256 => some "\x7b8829d00f-11b8-4213-878b-770e8597ac16\x7d"
  | md5 => none

end HashAlgorithm

end RazorLang
