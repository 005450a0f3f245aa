import RazorLang.Workspace.DocumentState
import RazorLang.Workspace.PathMap

/-!
# States of a project

A `ProjectState` is what a project is at some time: its documents and settings, each with the version at
which it last became another. A transition makes a new state, or none if there is nothing to change.

The project also knows which documents take imports from which place, also where there is no document yet.
A change of a document renews all documents that take imports from its place.
-/

namespace RazorLang

/-- What a project is at some time. -/
structure ProjectState where
  /-- Tells states apart. -/
  serial : Nat
  host : HostProject
  discovery : Discovery := {}
  documents : PathMap DocumentState := []
  /-- The documents that take imports from a place in the project, by place. -/
  importers : PathMap PathSet := []
  version : Version
  documentsVersion : Version
  configurationVersion : Version
  discoveryVersion : Version

namespace ProjectState

/-- The first state of a project. -/
def create (host : HostProject) : StateM Memory ProjectState := do
  let serial ← Memory.serial
  let version ← Memory.version
  return { serial, host, version, documentsVersion := version, configurationVersion := version,
           discoveryVersion := version }

/-- A document of the project. -/
def document? (p : ProjectState) (path : Text) : Option DocumentState := p.documents.get? path

/-- The paths of the documents that take imports from a place. -/
def importersOf (p : ProjectState) (target : Text) : PathSet := (p.importers.get? target).getD []

/-- The document at a place in the project, whatever the case of its letters. -/
def at? (p : ProjectState) (target : Text) : Option DocumentState :=
  p.documents.values.find? fun d => Text.sameIgnoringCase d.host.target target

/-- The documents that a document takes imports from, outermost first. -/
def importsOf (p : ProjectState) (d : HostDocument) : List DocumentState :=
  d.importTargets.filterMap p.at?

/-- The engine that compiles the documents for an editor. -/
def engine (p : ProjectState) : Except Fault Engine :=
  Engine.new
    { languageVersion := p.host.configuration.languageVersion
      designTime := true
      suppressChecksum := true
      rootNamespace := p.host.rootNamespace }
    p.discovery.tagHelpers

/-! ## Transitions -/

/-- Renews the documents at some paths. -/
def renewAt (documents : PathMap DocumentState) (paths : PathSet) :
    StateM Memory (PathMap DocumentState) :=
  documents.mapM fun (path, d) => do
    if paths.contains path then return (path, ← d.renewed) else return (path, d)

/-- Renews all documents. -/
def renewAll (documents : PathMap DocumentState) : StateM Memory (PathMap DocumentState) :=
  documents.mapM fun (path, d) => do return (path, ← d.renewed)

/-- Notes that a document takes imports from a place. -/
def addImporter (path : Text) (importers : PathMap PathSet) (target : Text) : PathMap PathSet :=
  importers.set target (PathSet.add path ((importers.get? target).getD []))

/-- Forgets that a document takes imports from a place. -/
def removeImporter (path : Text) (importers : PathMap PathSet) (target : Text) : PathMap PathSet :=
  match importers.get? target with
  | none => importers
  | some paths =>
    match PathSet.remove paths path with
    | [] => importers.erase target
    | rest => importers.set target rest

/-- The state with other documents. -/
def withDocuments (p : ProjectState) (documents : PathMap DocumentState)
    (importers : PathMap PathSet) : StateM Memory ProjectState := do
  let serial ← Memory.serial
  let version ← Memory.version
  return { p with serial, documents, importers, version, documentsVersion := version }

/-- The state with a further document. -/
def addDocument? (p : ProjectState) (d : HostDocument) (loader : Loader) :
    StateM Memory (Option ProjectState) := do
  if p.documents.contains d.path then return none
  let importers := d.importTargets.foldl (addImporter d.path) p.importers
  let documents ← renewAt p.documents ((importers.get? d.target).getD [])
  let state ← DocumentState.create d loader
  return some (← p.withDocuments (documents.set d.path state) importers)

/-- The state without a document. -/
def removeDocument? (p : ProjectState) (path : Text) : StateM Memory (Option ProjectState) := do
  let some d := p.document? path | return none
  let importers := d.host.importTargets.foldl (removeImporter path) p.importers
  let documents ← renewAt (p.documents.erase path) ((importers.get? d.host.target).getD [])
  return some (← p.withDocuments documents importers)

/-- The state in which a document is in another state. -/
def changeDocument? (p : ProjectState) (path : Text)
    (change : DocumentState → StateM Memory DocumentState) : StateM Memory (Option ProjectState) := do
  let some d := p.document? path | return none
  let changed ← change d
  let documents ← renewAt (p.documents.set path changed) (p.importersOf d.host.target)
  return some { p with serial := ← Memory.serial, documents, version := ← Memory.version }

/-- The state in which a document has another text. Where the text so far is known, an equal text keeps its
    version; otherwise the version is settled when the text so far is loaded. -/
def changeText? (p : ProjectState) (path text : Text) : StateM Memory (Option ProjectState) :=
  p.changeDocument? path fun d => do
    match d.peek? (← get) with
    | some older =>
      let version ← if older.text == text then pure older.version else Memory.version
      d.withText ⟨text, version⟩
    | none => d.withLoader (.replaced d.loader text)

/-- The state in which the text of a document comes from elsewhere. -/
def changeLoader? (p : ProjectState) (path : Text) (loader : Loader) :
    StateM Memory (Option ProjectState) :=
  p.changeDocument? path (·.withLoader loader)

/-- The state with other settings of the host. -/
def configure? (p : ProjectState) (host : HostProject) : StateM Memory (Option ProjectState) := do
  if p.host = host then return none
  let documents ← renewAll p.documents
  let serial ← Memory.serial
  let version ← Memory.version
  return some { p with serial, host, documents, version, configurationVersion := version }

/-- The state in which something else has been found out about the project. -/
def discover? (p : ProjectState) (discovery : Discovery) : StateM Memory (Option ProjectState) := do
  if p.discovery = discovery then return none
  let documents ← renewAll p.documents
  let serial ← Memory.serial
  let version ← Memory.version
  return some { p with serial, discovery, documents, version, discoveryVersion := version }

end ProjectState

end RazorLang
