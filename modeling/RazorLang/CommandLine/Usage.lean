import RazorLang.CommandLine.Invocation

/-!
# Reading a command line

`parse` reads the arguments of the program. After the name of a command come one file and switches in any
order. A switch is written `--name` or, if it has a letter, `-n`; its value follows as the next argument or
is attached: `--name=value`, `-nvalue`, `-n=value`. Behind `--` everything is taken literally.

A value is looked at when the argument after it has been recognised, so of two mistakes an unknown argument
right behind a bad value counts first.
-/

namespace RazorLang.CommandLine

/-- What is wrong with a command line, or what is asked for instead of a command. -/
inductive UsageFault where
  | noCommand
  | unknownCommand
  | unknownArgument
  | missingArgument
  | missingValue
  | unwantedValue
  | invalidChoice
  | invalidNumber
  | repeated
  | help
  | version
  deriving DecidableEq, Repr

/-- What the value of a switch must be. -/
inductive Format where
  | text
  | language
  | number
  deriving DecidableEq, Repr

/-- A switch of a command. -/
structure Switch where
  name : Text
  letter : Option Char := none
  /-- What the value must be; a switch without a value is on if it is there. -/
  takes : Option Format := none
  repeats : Bool := false
  deriving DecidableEq, Repr

/-- The names of the commands. -/
inductive Command where
  | generate
  | html
  | tokens
  | tree
  | map
  deriving DecidableEq, Repr

namespace Command

/-- The name of a command. -/
def name : Command → Text
  | generate => "generate"
  | html => "html"
  | tokens => "tokens"
  | tree => "tree"
  | map => "map"

/-- The command with a name. -/
def ofName? (t : Text) : Option Command := [generate, html, tokens, tree, map].find? (·.name == t)

/-- The switches of the commands that compile a document. -/
def engineSwitches : List Switch :=
  [{ name := "design-time" },
   { name := "tag-helpers", takes := some .text },
   { name := "import", letter := some 'i', takes := some .text, repeats := true },
   { name := "checksum", takes := some .text },
   { name := "no-checksum" },
   { name := "language-version", takes := some .text },
   { name := "root-namespace", takes := some .text }]

/-- The switches of a command. -/
def switches : Command → List Switch
  | generate | html => { name := "output", letter := some 'o', takes := some .text } :: engineSwitches
  | tokens => [{ name := "language", letter := some 'l', takes := some .language }, { name := "json" }]
  | tree => engineSwitches
  | map =>
    [{ name := "line", takes := some .number }, { name := "character", takes := some .number }] ++
      engineSwitches

/-- The switches that a command cannot do without. -/
def required : Command → List Text
  | map => ["line".toList, "character".toList]
  | _ => []

end Command

/-- The number that some digits stand for. -/
def digits? (t : Text) : Option Nat :=
  if t.isEmpty || !t.all Char.isDigit then none
  else some (t.foldl (fun n c => 10 * n + (c.toNat - 48)) 0)

/-- The number that a value stands for, with or without a sign; it must be one that a position can have. -/
def number? (t : Text) : Option Nat :=
  let read : Option Nat :=
    match t with
    | '+' :: t => digits? t
    | '-' :: t => (digits? t).filter (· == 0)
    | t => digits? t
  read.filter (· ≤ Position.limit)

/-- Refuses a value that is not of a format. -/
def Format.check (value : Text) : Format → Except UsageFault Unit
  | text => .ok ()
  | language => if (Language.ofName? value).isSome then .ok () else .error .invalidChoice
  | number => if (number? value).isSome then .ok () else .error .invalidNumber

/-- How an argument is written. -/
inductive Argument where
  | escape
  | long (name : Text) (value : Option Text)
  | short (letters : Text)
  | word (t : Text)
  deriving DecidableEq, Repr

/-- How an argument is written. -/
def Argument.ofText : Text → Argument
  | ['-', '-'] => .escape
  | '-' :: '-' :: t =>
    match Text.splitFirst? (· == '=') t with
    | some (name, value) => .long name (some value)
    | none => .long t none
  | '-' :: c :: t => .short (c :: t)
  | t => .word t

/-- What has been read of the arguments of a command. -/
structure Progress where
  /-- Switches with their values, in order; a switch without a value has an empty one. -/
  values : List (Text × Text) := []
  /-- The last switch, as long as its value has not been looked at. -/
  open? : Option (Switch × Option Text) := none
  file : Option Text := none
  /-- `--` has been read. -/
  isLiteral : Bool := false
  deriving DecidableEq, Repr

namespace Progress

/-- Notes a switch with its value. -/
def note (p : Progress) (s : Switch) (value : Text) : Except UsageFault Progress := do
  if !s.repeats && p.values.any (·.1 == s.name) then throw .repeated
  (s.takes.getD .text).check value
  return { p with values := p.values ++ [(s.name, value)] }

/-- Looks at the value of the last switch. -/
def settle (p : Progress) : Except UsageFault Progress :=
  match p.open? with
  | none => .ok p
  | some (_, none) => .error .missingValue
  | some (s, some value) => note { p with open? := none } s value

/-- Takes in the file. -/
def takeFile (p : Progress) (t : Text) : Except UsageFault Progress := do
  if p.file.isSome then throw .unknownArgument
  let p ← p.settle
  return { p with file := some t }

/-- Takes in a word: the value that the last switch lacks, or else the file. -/
def takeWord (p : Progress) (t : Text) : Except UsageFault Progress :=
  match p.open? with
  | some (s, none) => .ok { p with open? := some (s, some t) }
  | _ => p.takeFile t

/-- Takes in a switch, with the value that is attached to it. -/
def takeSwitch (p : Progress) (s : Switch) (value : Option Text) : Except UsageFault Progress :=
  match s.takes, value with
  | none, some _ => .error .unwantedValue
  | none, none => do (← p.settle).note s []
  | some _, some value => do (← p.settle).note s value
  | some _, none => do return { (← p.settle) with open? := some (s, none) }

/-- Asks for help. -/
def takeHelp (p : Progress) (value : Option Text) : Except UsageFault Progress := do
  if value.isSome then throw .unwantedValue
  let _ ← p.settle
  throw .help

/-- Takes in letters behind a dash. -/
def takeLetters (switches : List Switch) (p : Progress) : Text → Except UsageFault Progress
  | [] => .ok p
  | c :: rest =>
    match switches.find? (·.letter == some c) with
    | some s =>
      if s.takes.isNone then do takeLetters switches (← p.takeSwitch s none) rest
      else
        match rest with
        | [] => p.takeSwitch s none
        | '=' :: value => p.takeSwitch s (some value)
        | value => p.takeSwitch s (some value)
    | none => if c == 'h' then p.takeHelp none else .error .unknownArgument

/-- Takes in an argument. -/
def take (switches : List Switch) (p : Progress) (t : Text) : Except UsageFault Progress :=
  if p.isLiteral then p.takeFile t
  else
    match Argument.ofText t with
    | .escape => .ok { p with isLiteral := true }
    | .long name value =>
      match switches.find? (·.name == name) with
      | some s => p.takeSwitch s value
      | none => if name == "help".toList then p.takeHelp value else .error .unknownArgument
    | .short letters => takeLetters switches p letters
    | .word t => p.takeWord t

/-- The value of a switch. -/
def value? (p : Progress) (name : String) : Option Text := p.values.lookup name.toList

/-- A switch is there. -/
def has (p : Progress) (name : String) : Bool := (p.value? name).isSome

/-- The settings of the engine. -/
def settings (p : Progress) : Settings :=
  { designTime := p.has "design-time"
    tagHelpers := p.value? "tag-helpers"
    imports := (p.values.filter (·.1 == "import".toList)).map Prod.snd
    checksum := (p.value? "checksum").getD "sha256"
    noChecksum := p.has "no-checksum"
    languageVersion := (p.value? "language-version").getD "latest"
    rootNamespace := p.value? "root-namespace" }

/-- The number that a switch has. -/
def number (p : Progress) (name : String) : Nat := ((p.value? name).bind number?).getD 0

/-- What is asked for. -/
def invocation (p : Progress) (file : Text) : Command → Invocation
  | .generate => .generate .csharp file (p.value? "output") p.settings
  | .html => .generate .html file (p.value? "output") p.settings
  | .tokens => .tokens file (((p.value? "language").bind Language.ofName?).getD .html) (p.has "json")
  | .tree => .tree file p.settings
  | .map => .map file ⟨p.number "line", p.number "character"⟩ p.settings

end Progress

/-- Reads the arguments of a command. -/
def Command.parse (c : Command) (arguments : List Text) : Except UsageFault Invocation := do
  let p ← arguments.foldlM (Progress.take c.switches) {}
  let p ← p.settle
  let isComplete := c.required.all fun name => p.values.any (·.1 == name)
  match p.file with
  | some file => if isComplete then return p.invocation file c else throw .missingArgument
  | none => throw .missingArgument

/-- The command that explains the others. -/
def helpName : Text := "help"

/-- Reads what comes behind the command `help`. -/
def parseHelp : List Text → UsageFault
  | [] => .help
  | [t] => if (Command.ofName? t).isSome || t == helpName then .help else .unknownCommand
  | _ => .unknownCommand

/-- Reads the arguments of the program. -/
def parse : List Text → Except UsageFault Invocation
  | [] => .error .noCommand
  | first :: rest =>
    match Command.ofName? first with
    | some c => c.parse rest
    | none =>
      if first == helpName then .error (parseHelp rest)
      else
        match Argument.ofText first with
        | .escape =>
          match rest with
          | [] => .error .noCommand
          | t :: _ =>
            if (Command.ofName? t).isSome || t == helpName then .error .unknownArgument
            else .error .unknownCommand
        | .long name value =>
          if name == helpName || name == "version".toList then
            if value.isSome then .error .unwantedValue
            else .error (if name == helpName then .help else .version)
          else .error .unknownArgument
        | .short ('h' :: _) => .error .help
        | .short ('V' :: _) => .error .version
        | .short _ => .error .unknownArgument
        | .word _ => .error .unknownCommand

end RazorLang.CommandLine
