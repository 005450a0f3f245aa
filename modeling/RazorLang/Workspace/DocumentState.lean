import RazorLang.Workspace.Host
import RazorLang.Workspace.Memory

/-!
# States of a document

A `DocumentState` says what a document of a project is at some time: which document, and where its text
comes from. Every change makes a new state, which starts with what is still known:

* with another text or loader, the text is what is given;
* with other surroundings, the text that has been loaded stays loaded.

Either way the new state remembers the latest earlier one that was asked for output, its *baseline*.
-/

namespace RazorLang

/-- What a document is at some time. -/
structure DocumentState where
  /-- Under this serial the memory keeps what is found out about the state. -/
  serial : Nat
  host : HostDocument
  loader : Loader

namespace DocumentState

/-- Makes a state about which something is known from the start. -/
def make (host : HostDocument) (loader : Loader) (known : Findings) : StateM Memory DocumentState := do
  let serial ← Memory.serial
  Memory.note serial fun _ => known
  return ⟨serial, host, loader⟩

/-- The first state of a document. -/
def create (host : HostDocument) (loader : Loader) : StateM Memory DocumentState := make host loader {}

/-- The state whose output a successor of this one may use. -/
def baseline (d : DocumentState) : StateM Memory (Option Nat) := do
  let known ← Memory.known d.serial
  return if known.isRequested then some d.serial else known.baseline

/-- The state with another text. -/
def withText (d : DocumentState) (value : VersionedText) : StateM Memory DocumentState := do
  make d.host (.known value) { loaded := some value, baseline := ← d.baseline }

/-- The state with a text from elsewhere. -/
def withLoader (d : DocumentState) (loader : Loader) : StateM Memory DocumentState := do
  make d.host loader { baseline := ← d.baseline }

/-- The state with the same text in other surroundings. -/
def renewed (d : DocumentState) : StateM Memory DocumentState := do
  let known ← Memory.known d.serial
  make d.host d.loader { loaded := known.loaded, baseline := ← d.baseline }

/-- The text, which is loaded if nobody has done so before. -/
def load (d : DocumentState) : Attempt VersionedText := do
  match (← Memory.known d.serial).loaded with
  | some value => return value
  | none =>
    let value ← d.loader.load
    Memory.note d.serial fun known => { known with loaded := some value }
    return value

/-- The text, if it is known without reading anything. -/
def peek? (d : DocumentState) (m : Memory) : Option VersionedText :=
  (m.findings d.serial).loaded.orElse fun _ => d.loader.peek?

end DocumentState

end RazorLang
