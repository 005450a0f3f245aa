import RazorLang.Text.Quoted

/-!
# JSON values

The values of JSON and their written forms: `pretty` has an item or member a line, and `compact` is one line
in ASCII. Members of an object keep their order; a number is kept as it is written.
-/

namespace RazorLang

/-- A JSON value. -/
inductive Json where
  | null
  | bool (value : Bool)
  | number (digits : Text)
  | string (value : Text)
  | array (items : List Json)
  | object (members : List (Text × Json))
  deriving Inhabited

namespace Json

/-- The number of a count. -/
def ofNat (n : Nat) : Json := number (Text.ofNat n)

/-- A text, or nothing. -/
def ofText? : Option Text → Json
  | some t => string t
  | none => null

/-- One character of a written string. -/
def writtenChar (c : Char) : Text :=
  if c == '"' then "\\\""
  else if c == '\\' then "\\\\"
  else if c == '\n' then "\\n"
  else if c == '\r' then "\\r"
  else if c == '\t' then "\\t"
  else if c == '\x08' then "\\b"
  else if c == '\x0c' then "\\f"
  else if c.toNat < 32 then
    "\\u00" ++ [Nat.digitChar (c.toNat / 16), Nat.digitChar (c.toNat % 16)]
  else [c]

/-- The written form of a string, between quotes. -/
def written (t : Text) : Text := "\"" ++ t.flatMap writtenChar ++ "\""

/-- A line break and the blanks before what is on the next line. -/
def newLine (depth : Nat) : Text := '\n' :: List.replicate (2 * depth) ' '

mutual

/-- The written form of a value, one item or member a line, inside `depth` others. -/
def pretty (depth : Nat) : Json → Text
  | null => "null"
  | bool true => "true"
  | bool false => "false"
  | number digits => digits
  | string value => written value
  | array [] => "[]"
  | array (item :: items) =>
    "[" ++ newLine (depth + 1) ++ pretty (depth + 1) item ++ prettyItems (depth + 1) items ++
      newLine depth ++ "]"
  | object [] => "\x7b\x7d"
  | object ((key, value) :: members) =>
    "\x7b" ++ newLine (depth + 1) ++ written key ++ ": " ++ pretty (depth + 1) value ++
      prettyMembers (depth + 1) members ++ newLine depth ++ "\x7d"

/-- The further items of an array. -/
def prettyItems (depth : Nat) : List Json → Text
  | [] => []
  | item :: items => "," ++ newLine depth ++ pretty depth item ++ prettyItems depth items

/-- The further members of an object. -/
def prettyMembers (depth : Nat) : List (Text × Json) → Text
  | [] => []
  | (key, value) :: members =>
    "," ++ newLine depth ++ written key ++ ": " ++ pretty depth value ++ prettyMembers depth members

end

/-- The members of an object. -/
def members? : Json → Option (List (Text × Json))
  | object members => some members
  | _ => none

/-- The items of an array. -/
def items? : Json → Option (List Json)
  | array items => some items
  | _ => none

/-- The text of a string. -/
def text? : Json → Option Text
  | string t => some t
  | _ => none

/-- The value of the last member with a name. -/
def lookup? (j : Json) (name : Text) : Option Json :=
  (j.members?.getD []).reverse.lookup name

mutual

/-- The value without members that a later one of the same name makes void. -/
def distinct : Json → Json
  | array items => array (distinctItems items)
  | object members => object (distinctMembers members)
  | other => other

/-- Items without void members. -/
def distinctItems : List Json → List Json
  | [] => []
  | item :: items => distinct item :: distinctItems items

/-- Members without those that a later one makes void. -/
def distinctMembers : List (Text × Json) → List (Text × Json)
  | [] => []
  | (name, value) :: members =>
    if members.any (·.1 == name) then distinctMembers members
    else (name, distinct value) :: distinctMembers members

end

/-! ## On one line -/

/-- Four hexadecimal digits of a number. -/
def hexQuad (n : Nat) : Text :=
  [n / 4096 % 16, n / 256 % 16, n / 16 % 16, n % 16].map Nat.digitChar

/-- One character of a string that is written in ASCII; beyond the first plane it takes two escapes. -/
def asciiChar (c : Char) : Text :=
  let n := c.toNat
  if n < 128 then writtenChar c
  else if n < 0x10000 then "\\u" ++ hexQuad n
  else
    "\\u" ++ hexQuad (0xD800 + (n - 0x10000) / 0x400) ++ "\\u" ++ hexQuad (0xDC00 + (n - 0x10000) % 0x400)

/-- The written form of a string in ASCII, between quotes. -/
def ascii (t : Text) : Text := "\"" ++ t.flatMap asciiChar ++ "\""

/-- Texts with a comma between any two. -/
def joined : List Text → Text
  | [] => []
  | [t] => t
  | t :: rest => t ++ "," ++ joined rest

mutual

/-- The written form of a value on one line and in ASCII. -/
def compact : Json → Text
  | null => "null"
  | bool true => "true"
  | bool false => "false"
  | number digits => digits
  | string value => ascii value
  | array items => "[" ++ joined (compactItems items) ++ "]"
  | object members => "\x7b" ++ joined (compactMembers members) ++ "\x7d"

/-- The written forms of items. -/
def compactItems : List Json → List Text
  | [] => []
  | item :: items => compact item :: compactItems items

/-- The written forms of members. -/
def compactMembers : List (Text × Json) → List Text
  | [] => []
  | (name, value) :: members => (ascii name ++ ":" ++ compact value) :: compactMembers members

end

end Json

end RazorLang
