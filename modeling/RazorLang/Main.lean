import RazorLang.CommandLine.Execution
import RazorLang.CommandLine.Usage

/-!
# The program

Reads the arguments, carries out the command, and does the reading and writing that it asks for.
-/

namespace RazorLang.CommandLine

/-- The reason that the system gives for a failure. -/
def reasonOf (e : IO.Error) : Text :=
  let withCode (details : String) (code : UInt32) : Text :=
    details.toList ++ " (os error " ++ Text.ofNat code.toNat ++ ")"
  match e with
  | .noFileOrDirectory _ code details => withCode details code
  | .permissionDenied _ code details => withCode details code
  | .inappropriateType _ code details => withCode details code
  | .resourceExhausted _ code details => withCode details code
  | .invalidArgument _ code details => withCode details code
  | other => other.toString.toList

/-- What a file says, or why it cannot be read. -/
def readNow (path : Text) : IO (Except Text Text) := do
  try
    let bytes ← IO.FS.readBinFile (String.ofList path)
    match String.fromUTF8? bytes with
    | some s => return .ok s.toList
    | none => return .error "stream did not contain valid UTF-8"
  catch e => return .error (reasonOf e)

/-- The files that a command may read. -/
def Invocation.files : Invocation → List Text
  | generate _ path _ settings | tree path settings | map path _ settings =>
    path :: settings.tagHelpers.toList ++ settings.imports
  | tokens path _ _ => [path]

/-- Writes the text of a response. -/
def Response.write (r : Response) : IO (Except Text Unit) := do
  try
    match r.target with
    | some path => IO.FS.writeFile (String.ofList path) (String.ofList r.text)
    | none => IO.print (String.ofList r.text)
    return .ok ()
  catch e => return .error (reasonOf e)

/-- Says how a command failed. -/
def complain (f : CommandFault) : IO UInt32 := do
  IO.eprintln ("Error: " ++ String.ofList f.message)
  return 1

/-- Carries out a command. -/
def perform (invocation : Invocation) : IO UInt32 := do
  let known ← invocation.files.mapM fun path => do return (path, ← readNow path)
  let files : Files := fun path => (known.lookup path).getD (.error "not read")
  match invocation.run files with
  | .error f => complain f
  | .ok response =>
    let (report, failure) := response.conclude (← response.write)
    IO.eprint (String.ofList report)
    match failure with
    | some f => complain f
    | none => return 0

/-- How the program is used. -/
def usage : String :=
  "Razor - template compiler toolkit\n\n" ++
  "Usage: razor <COMMAND> <FILE> [OPTIONS]\n\n" ++
  "Commands:\n" ++
  "  generate  Generate the C# class for a Razor document\n" ++
  "  html      Print the HTML projection of a Razor document\n" ++
  "  tokens    Dump the tokens of a file\n" ++
  "  tree      Print the syntax tree of a Razor document\n" ++
  "  map       Map a position of a Razor document to the generated C#"

/-- Answers a command line that names no command to carry out. -/
def answerUsage : UsageFault → IO UInt32
  | .help => do
    IO.println usage
    return 0
  | .version => do
    IO.println "razor 1.0.0"
    return 0
  | _ => do
    IO.eprintln usage
    return 2

end RazorLang.CommandLine

open RazorLang.CommandLine in
/-- Carries out the command that the arguments name. -/
def main (arguments : List String) : IO UInt32 :=
  match parse (arguments.map String.toList) with
  | .ok invocation => perform invocation
  | .error fault => answerUsage fault
