import RazorLang.Engine
import RazorLang.Workspace.Fault
import RazorLang.Workspace.Loader

/-!
# What a workspace remembers

The states of projects and documents never change once they are made. What is found out about them later,
the text that was loaded and the output that was generated, is kept in a `Memory`, under the serials of the
document states. The memory also hands out serials, and knows how often each file has been read.

An `Attempt` works on the memory and may fail; what it found out before it failed stays known.
-/

namespace RazorLang

/-- Everything generated for a document, with the versions of what it was made from and of what was made. -/
structure Output where
  /-- Tells outputs apart. -/
  serial : Nat
  compilation : Compilation
  /-- The newest version among the inputs. -/
  input : Version
  /-- The input at which the generated C# last became another. -/
  csharp : Version
  /-- The input at which the HTML projection last became another. -/
  html : Version

/-- What is known about the state of a document. -/
structure Findings where
  loaded : Option VersionedText := none
  /-- Somebody has asked for the output. -/
  isRequested : Bool := false
  output : Option Output := none
  /-- The earlier state whose output may still be good. -/
  baseline : Option Nat := none

/-- What a workspace remembers. -/
structure Memory where
  /-- The next serial that is handed out. -/
  next : Nat := 0
  /-- What is known about document states, by serial. -/
  findings : Nat → Findings := fun _ => {}
  /-- How often files have been read, by key. -/
  readings : Nat → Nat := fun _ => 0
  /-- The paths of the files that have been read, the latest first. -/
  log : List Text := []

/-- Work on the memory that may fail. -/
abbrev Attempt := ExceptT WorkspaceFault (StateM Memory)

namespace Memory

/-- Hands out a serial. -/
def serial : StateM Memory Nat := fun m => (m.next, { m with next := m.next + 1 })

/-- Hands out a version. -/
def version : StateM Memory Version := Version.mk <$> serial

/-- What is known about a document state. -/
def known (state : Nat) : StateM Memory Findings := fun m => (m.findings state, m)

/-- Notes something about a document state. -/
def note (state : Nat) (f : Findings → Findings) : StateM Memory Unit := fun m =>
  ((), { m with findings := fun n => if n = state then f (m.findings n) else m.findings n })

/-- Reads a file. -/
def read (f : TextFile) : StateM Memory Reading := fun m =>
  (f.reading (m.readings f.key),
    { m with
      readings := fun k => if k = f.key then m.readings k + 1 else m.readings k
      log := f.path :: m.log })

end Memory

namespace Loader

/-- Finds out the text and its version. A text that takes the place of an equal one keeps the version, and
    gets a new one otherwise, also if the older text cannot be loaded. -/
def load : Loader → Attempt VersionedText
  | known value => return value
  | file f => do
    match ← Memory.read f with
    | .versioned value => return value
    | .fresh text => return ⟨text, ← Memory.version⟩
    | .failed reason => throw (.unreadable f.path reason)
  | replaced older text => do
    let found : Except WorkspaceFault VersionedText ← (load older).run
    match found with
    | .ok o => if o.text == text then return ⟨text, o.version⟩ else return ⟨text, ← Memory.version⟩
    | .error _ => return ⟨text, ← Memory.version⟩

end Loader

end RazorLang
