import RazorLang.Workspace.Output

/-!
# Workspaces

A `Workspace` is all projects of a solution at some time. Everything that is done to it is a `Change`:
`apply` carries one out and says what listeners are to be told, which is nothing if nothing has changed.
While the solution is closing, documents and settings stay as they are, and listeners are told so.
-/

namespace RazorLang

/-- Something that is done to a workspace. -/
inductive Change where
  | openSolution
  | closeSolution
  | addProject (host : HostProject)
  | removeProject (project : Text)
  | configureProject (host : HostProject)
  | discover (project : Text) (discovery : Discovery)
  | addDocument (project : Text) (document : HostDocument) (loader : Loader)
  | removeDocument (project path : Text)
  | openDocument (project path text : Text)
  | closeDocument (project path : Text) (loader : Loader)
  | changeText (project path text : Text)
  | changeLoader (project path : Text) (loader : Loader)

/-- The operation that a change is. -/
def Change.operation : Change → Operation
  | openSolution => .openSolution
  | closeSolution => .closeSolution
  | addProject _ => .addProject
  | removeProject _ => .removeProject
  | configureProject _ => .configureProject
  | discover .. => .discover
  | addDocument .. => .addDocument
  | removeDocument .. => .removeDocument
  | openDocument .. => .openDocument
  | closeDocument .. => .closeDocument
  | changeText .. => .changeText
  | changeLoader .. => .changeLoader

/-- What kind of change listeners are told of. -/
inductive EventKind where
  | projectAdded
  | projectRemoved
  | projectChanged
  | documentAdded
  | documentRemoved
  | documentChanged
  deriving DecidableEq, Repr

/-- The name of a kind of change. -/
def EventKind.name : EventKind → Text
  | projectAdded => "ProjectAdded"
  | projectRemoved => "ProjectRemoved"
  | projectChanged => "ProjectChanged"
  | documentAdded => "DocumentAdded"
  | documentRemoved => "DocumentRemoved"
  | documentChanged => "DocumentChanged"

/-- What listeners are told: which project or document, and the project before and after. -/
structure Event where
  kind : EventKind
  project : Text
  document : Option Text
  older : Option ProjectState
  newer : Option ProjectState
  /-- The solution is closing. -/
  isClosing : Bool

/-- All projects of a solution at some time. -/
structure Workspace where
  projects : PathMap ProjectState := []
  openDocuments : PathSet := []
  isClosing : Bool := false
  memory : Memory := {}

namespace Workspace

/-- Works on the memory of the workspace. -/
def act {α : Type} (w : Workspace) (x : StateM Memory α) : α × Workspace :=
  let (a, memory) := x.run w.memory
  (a, { w with memory })

/-- Works on the memory of the workspace, and may fail. -/
def attempt {α : Type} (w : Workspace) (x : Attempt α) : Except WorkspaceFault α × Workspace :=
  w.act x.run

/-- A project of the workspace. -/
def project? (w : Workspace) (path : Text) : Option ProjectState := w.projects.get? path

/-- A document of a project. -/
def document? (w : Workspace) (project path : Text) : Option DocumentSnapshot :=
  (w.project? project).bind (·.snapshot? path)

/-- The projects that have a document. -/
def projectsWith (w : Workspace) (path : Text) : List ProjectState :=
  w.projects.values.filter fun p => (p.document? path).isSome

/-- A document is open. -/
def isOpen (w : Workspace) (path : Text) : Bool := w.openDocuments.contains path

/-- Makes a change of one project, unless the project does not exist. Settled changes of open documents
    hold even if the project stays as it is. -/
def update (w : Workspace) (project : Text) (kind : EventKind) (document : Option Text)
    (settle : ProjectState → PathSet → PathSet)
    (change : ProjectState → StateM Memory (Option ProjectState)) : Option Event × Workspace :=
  match w.project? project with
  | none => (none, w)
  | some older =>
    let event (newer : ProjectState) : Event :=
      { kind, project, document, older := some older, newer := some newer, isClosing := w.isClosing }
    if w.isClosing then (some (event older), w)
    else
      let w := { w with openDocuments := settle older w.openDocuments }
      match w.act (change older) with
      | (none, w) => (none, w)
      | (some newer, w) => (some (event newer), { w with projects := w.projects.set project newer })

/-- Open documents stay as they are. -/
def keepOpen (_ : ProjectState) (s : PathSet) : PathSet := s

/-- Adds a project, unless there is one at its path. -/
def addProject (w : Workspace) (host : HostProject) : Option Event × Workspace :=
  if w.projects.contains host.path then (none, w)
  else
    let (p, w) := w.act (ProjectState.create host)
    (some { kind := .projectAdded, project := host.path, document := none, older := none,
            newer := some p, isClosing := w.isClosing },
      { w with projects := w.projects.set host.path p })

/-- Removes a project, if there is one. -/
def removeProject (w : Workspace) (project : Text) : Option Event × Workspace :=
  match w.project? project with
  | none => (none, w)
  | some p =>
    (some { kind := .projectRemoved, project, document := none, older := some p, newer := none,
            isClosing := w.isClosing },
      { w with projects := w.projects.erase project })

/-- Carries out a change; listeners are told of it if there is an event. -/
def apply (w : Workspace) : Change → Option Event × Workspace
  | .openSolution => (none, { w with isClosing := false })
  | .closeSolution => (none, { w with isClosing := true })
  | .addProject host => w.addProject host
  | .removeProject project => w.removeProject project
  | .configureProject host =>
    w.update host.path .projectChanged none keepOpen (·.configure? host)
  | .discover project discovery =>
    w.update project .projectChanged none keepOpen (·.discover? discovery)
  | .addDocument project document loader =>
    w.update project .documentAdded (some document.path) keepOpen (·.addDocument? document loader)
  | .removeDocument project path =>
    w.update project .documentRemoved (some path) (fun _ s => PathSet.remove s path)
      (·.removeDocument? path)
  | .openDocument project path text =>
    w.update project .documentChanged (some path)
      (fun p s => if (p.document? path).isSome then PathSet.add path s else s)
      (·.changeText? path text)
  | .closeDocument project path loader =>
    w.update project .documentChanged (some path) (fun _ s => PathSet.remove s path)
      (·.changeLoader? path loader)
  | .changeText project path text =>
    w.update project .documentChanged (some path) keepOpen (·.changeText? path text)
  | .changeLoader project path loader =>
    w.update project .documentChanged (some path) keepOpen (·.changeLoader? path loader)

end Workspace

end RazorLang
