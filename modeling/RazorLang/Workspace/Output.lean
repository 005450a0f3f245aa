import RazorLang.Workspace.ProjectState

/-!
# Output of a document

The output of a document state is made at most once. It is made from the document, its imports and the
settings of its project, and the newest of their versions is its *input*:

* if the baseline's output has an input that is not older, nothing has changed, and it is used again;
* otherwise the document is compiled, and a generated text that is equal to the baseline's keeps the
  baseline's version of it, so that versions tell when a text became another.
-/

namespace RazorLang

/-- A document in a project at some time. -/
structure DocumentSnapshot where
  project : ProjectState
  state : DocumentState

namespace DocumentSnapshot

/-- A text as the source of a document. -/
def sourceOf (d : HostDocument) (text : Text) : Source := ⟨text, some d.path, some d.target⟩

/-- The request to the engine for the document with its imports. -/
def request (s : DocumentSnapshot) (text : Text) (imports : List (DocumentState × VersionedText)) :
    Request :=
  { source := sourceOf s.state.host text
    fileKind := s.state.host.fileKind
    imports := imports.map fun (i, loaded) => sourceOf i.host loaded.text }

/-- The newest version among what the output is made from. -/
def inputVersion (s : DocumentSnapshot) (text : VersionedText) (imports : List VersionedText) :
    Version :=
  text.version.newest <|
    [s.project.configurationVersion, s.project.discoveryVersion, s.project.documentsVersion] ++
      imports.map (·.version)

/-- The output of the baseline, if it has one. -/
def baselineOutput (s : DocumentSnapshot) : StateM Memory (Option Output) := do
  match (← Memory.known s.state.serial).baseline with
  | none => return none
  | some state => return (← Memory.known state).output

/-- Compiles the document. -/
def compile (s : DocumentSnapshot) (r : Request) : Except WorkspaceFault Compilation := do
  let engine ← s.project.engine.mapError .engine
  (engine.compile r).mapError .engine

/-- The version of a generated text: that of the older one if the two are equal. -/
def keepVersion (input : Version) (code : Text) (older : Option (Text × Version)) : Version :=
  match older with
  | some (olderCode, version) => if olderCode == code then version else input
  | none => input

/-- Makes the output, or finds that the baseline's is still good. -/
def make (s : DocumentSnapshot) (isCalledOff : Bool) : Attempt Output := do
  let text ← s.state.load
  let imports ← (s.project.importsOf s.state.host).mapM fun i => do return (i, ← i.load)
  if isCalledOff then throw .cancelled
  let input := s.inputVersion text (imports.map Prod.snd)
  let older ← s.baselineOutput
  match older.filter fun o => !o.input.isOlderThan input with
  | some good => return good
  | none =>
    let c ← s.compile (s.request text.text imports)
    return { serial := ← Memory.serial
             compilation := c
             input
             csharp := keepVersion input c.csharp.code
               (older.map fun o => (o.compilation.csharp.code, o.csharp))
             html := keepVersion input c.html.code
               (older.map fun o => (o.compilation.html.code, o.html)) }

/-- The output, which is made if nobody has asked for it before. Once there is one, the baseline is of no
    more use. -/
def output (s : DocumentSnapshot) (isCalledOff : Bool := false) : Attempt Output := do
  match (← Memory.known s.state.serial).output with
  | some o => return o
  | none =>
    Memory.note s.state.serial fun known => { known with isRequested := true }
    let o ← s.make isCalledOff
    Memory.note s.state.serial fun known => { known with output := some o, baseline := none }
    return o

/-- The documents that this one takes imports from, outermost first. -/
def imports (s : DocumentSnapshot) : List DocumentSnapshot :=
  (s.project.importsOf s.state.host).map fun state => { s with state }

/-- The documents that take imports from the place of this one. -/
def importers (s : DocumentSnapshot) : List DocumentSnapshot :=
  (s.project.importersOf s.state.host.target).filterMap fun path =>
    (s.project.document? path).map fun state => { s with state }

/-- Some document may take imports from the place of this one. -/
def isImport (s : DocumentSnapshot) : Bool := !(s.project.importersOf s.state.host.target).isEmpty

end DocumentSnapshot

/-- A document of the project at this time. -/
def ProjectState.snapshot? (p : ProjectState) (path : Text) : Option DocumentSnapshot :=
  (p.document? path).map fun state => ⟨p, state⟩

end RazorLang
