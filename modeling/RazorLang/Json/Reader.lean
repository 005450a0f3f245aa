import RazorLang.Json.Basic

/-!
# Reading JSON

`Json.parse?` reads a text that is one JSON value with white space around it, and nothing else. Each reader
gives what it reads at the front of a text and what follows it; `fuel` is more than the characters ahead.
-/

namespace RazorLang.Json

/-- White space between the parts of a value. -/
def isBlank (c : Char) : Bool := c == ' ' || c == '\t' || c == '\n' || c == '\r'

/-- A text without its leading white space. -/
def skipBlank (t : Text) : Text := t.dropWhile isBlank

/-- The value of a hexadecimal digit. -/
def hexDigit? (c : Char) : Option Nat :=
  if '0' ≤ c && c ≤ '9' then some (c.toNat - 48)
  else if 'a' ≤ c && c ≤ 'f' then some (c.toNat - 87)
  else if 'A' ≤ c && c ≤ 'F' then some (c.toNat - 55)
  else none

/-- The number that four hexadecimal digits at the front of a text stand for. -/
def hexQuad? : Text → Option (Nat × Text)
  | a :: b :: c :: d :: t => do
    return (((← hexDigit? a) * 16 + (← hexDigit? b)) * 256 + (← hexDigit? c) * 16 + (← hexDigit? d), t)
  | _ => none

/-- The character of a `\u` escape behind its `u`; two escapes make one character beyond the first
    plane. -/
def unicodeEscape? (t : Text) : Option (Char × Text) := do
  let (n, t) ← hexQuad? t
  if 0xD800 ≤ n && n ≤ 0xDBFF then
    match t with
    | '\\' :: 'u' :: t =>
      let (low, t) ← hexQuad? t
      if 0xDC00 ≤ low && low ≤ 0xDFFF then
        return (Char.ofNat (0x10000 + (n - 0xD800) * 0x400 + (low - 0xDC00)), t)
      else none
    | _ => none
  else if 0xDC00 ≤ n && n ≤ 0xDFFF then none
  else return (Char.ofNat n, t)

/-- The character that a letter behind a backslash stands for. -/
def simpleEscape? : Char → Option Char
  | '"' => some '"'
  | '\\' => some '\\'
  | '/' => some '/'
  | 'b' => some '\x08'
  | 'f' => some '\x0c'
  | 'n' => some '\n'
  | 'r' => some '\r'
  | 't' => some '\t'
  | _ => none

/-- The string at the front of a text, behind its opening quote. -/
def stringTail? : Nat → Text → Option (Text × Text)
  | 0, _ => none
  | _ + 1, [] => none
  | _ + 1, '"' :: t => some ([], t)
  | fuel + 1, '\\' :: 'u' :: t => do
    let (c, t) ← unicodeEscape? t
    let (s, t) ← stringTail? fuel t
    return (c :: s, t)
  | fuel + 1, '\\' :: c :: t => do
    let c ← simpleEscape? c
    let (s, t) ← stringTail? fuel t
    return (c :: s, t)
  | fuel + 1, c :: t =>
    if c.toNat < 32 || c == '\\' then none
    else do
      let (s, t) ← stringTail? fuel t
      return (c :: s, t)

/-- The digits at the front of a text, at least one. -/
def digits? (t : Text) : Option (Text × Text) :=
  match t.takeWhile Char.isDigit with
  | [] => none
  | ds => some (ds, t.dropWhile Char.isDigit)

/-- The whole part of a number: no zero in front of other digits. -/
def wholePart? : Text → Option (Text × Text)
  | '0' :: t =>
    match t with
    | c :: _ => if c.isDigit then none else some (['0'], t)
    | [] => some (['0'], [])
  | t => digits? t

/-- The fraction of a number, which may be absent. -/
def fractionPart? : Text → Option (Text × Text)
  | '.' :: t => (digits? t).map fun (ds, t) => ('.' :: ds, t)
  | t => some ([], t)

/-- The exponent of a number, which may be absent. -/
def exponentPart? : Text → Option (Text × Text)
  | c :: t =>
    if c == 'e' || c == 'E' then
      match t with
      | s :: u =>
        if s == '+' || s == '-' then (digits? u).map fun (ds, u) => (c :: s :: ds, u)
        else (digits? t).map fun (ds, u) => (c :: ds, u)
      | [] => none
    else some ([], c :: t)
  | [] => some ([], [])

/-- The number at the front of a text. -/
def number? (t : Text) : Option (Json × Text) := do
  let (sign, t) :=
    match t with
    | '-' :: t => (['-'], t)
    | _ => ([], t)
  let (whole, t) ← wholePart? t
  let (fraction, t) ← fractionPart? t
  let (exponent, t) ← exponentPart? t
  return (number (sign ++ whole ++ fraction ++ exponent), t)

mutual

/-- The value at the front of a text. -/
def valueAt? (fuel : Nat) (t : Text) : Option (Json × Text) :=
  match fuel with
  | 0 => none
  | fuel + 1 =>
    match skipBlank t with
    | '"' :: t => (stringTail? (t.length + 1) t).map fun (s, t) => (string s, t)
    | '[' :: t =>
      match skipBlank t with
      | ']' :: t => some (array [], t)
      | t => (itemsAt? fuel t).map fun (items, t) => (array items, t)
    | '\x7b' :: t =>
      match skipBlank t with
      | '\x7d' :: t => some (object [], t)
      | t => (membersAt? fuel t).map fun (members, t) => (object members, t)
    | 'n' :: 'u' :: 'l' :: 'l' :: t => some (null, t)
    | 't' :: 'r' :: 'u' :: 'e' :: t => some (bool true, t)
    | 'f' :: 'a' :: 'l' :: 's' :: 'e' :: t => some (bool false, t)
    | t => number? t

/-- The items of an array from one on. -/
def itemsAt? (fuel : Nat) (t : Text) : Option (List Json × Text) :=
  match fuel with
  | 0 => none
  | fuel + 1 => do
    let (item, t) ← valueAt? fuel t
    match skipBlank t with
    | ']' :: t => return ([item], t)
    | ',' :: t =>
      let (items, t) ← itemsAt? fuel t
      return (item :: items, t)
    | _ => none

/-- The members of an object from one on. -/
def membersAt? (fuel : Nat) (t : Text) : Option (List (Text × Json) × Text) :=
  match fuel with
  | 0 => none
  | fuel + 1 =>
    match skipBlank t with
    | '"' :: t => do
      let (key, t) ← stringTail? (t.length + 1) t
      match skipBlank t with
      | ':' :: t =>
        let (value, t) ← valueAt? fuel t
        match skipBlank t with
        | '\x7d' :: t => return ([(key, value)], t)
        | ',' :: t =>
          let (members, t) ← membersAt? fuel t
          return ((key, value) :: members, t)
        | _ => none
      | _ => none
    | _ => none

end

/-- The value that a whole text stands for. -/
def parse? (t : Text) : Option Json :=
  match valueAt? (2 * t.length + 2) t with
  | some (v, rest) => if (skipBlank rest).isEmpty then some v else none
  | none => none

end RazorLang.Json
