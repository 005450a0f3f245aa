import RazorLang.Workspace.Notification
import RazorLang.Workspace.WorkQueue

/-!
# Publication

The client keeps copies of the generated texts of open documents. A `Publisher` listens to the workspace,
schedules every open document that a change may affect, and when a document's turn comes, sends those of
its generated texts whose versions are not the ones that the client has.
-/

namespace RazorLang

/-- The versions of the copies that the client has of a document. -/
structure PublishedVersions where
  csharp : Version
  html : Version
  deriving DecidableEq, Repr

/-- A generated text that is sent to the client. -/
structure Publication where
  language : Language
  project : Text
  document : Text
  text : Text
  version : Version
  deriving DecidableEq, Repr

/-- What the client has, and the documents that wait to be sent. -/
structure Publisher where
  queue : WorkQueue DocumentSnapshot := {}
  /-- By project and document. -/
  published : List ((Text × Text) × PublishedVersions) := []
  /-- Everything that has been sent, the latest first. -/
  sent : List Publication := []

namespace Publisher

/-- The client has copies of a document. -/
def hasPublished (p : Publisher) (project document : Text) : Bool :=
  (p.published.lookup (project, document)).isSome

/-- Schedules a document. -/
def schedule (p : Publisher) (s : DocumentSnapshot) : Publisher :=
  { p with queue := p.queue.add (s.project.host.path ++ "|" ++ s.state.host.path) s }

/-- Schedules those of some documents that are open. -/
def scheduleOpen (w : Workspace) (p : Publisher) (documents : List DocumentSnapshot) : Publisher :=
  (documents.filter fun s => w.isOpen s.state.host.path).foldl schedule p

/-- Forgets what the client has of a document. -/
def forget (p : Publisher) (project document : Text) : Publisher :=
  { p with published := p.published.filter (·.1 != (project, document)) }

/-- Forgets what the client has of a project. -/
def forgetProject (p : Publisher) (project : Text) : Publisher :=
  { p with published := p.published.filter (·.1.1 != project) }

/-- What the publisher makes of an event. -/
def note (p : Publisher) (w : Workspace) (e : Event) : Publisher :=
  if e.isClosing then p
  else
    match e.kind with
    | .projectAdded | .projectChanged =>
      match e.newer with
      | some newer => scheduleOpen w p (newer.documents.paths.filterMap newer.snapshot?)
      | none => p
    | .projectRemoved => p.forgetProject e.project
    | .documentRemoved =>
      match e.document with
      | some path => p.forget e.project path
      | none => p
    | .documentAdded | .documentChanged =>
      match e.newer, e.document with
      | some newer, some path =>
        match newer.snapshot? path with
        | none => p
        | some s =>
          let p := scheduleOpen w p s.importers
          if w.isOpen path then p.schedule s else p.forget e.project path
      | _, _ => p

/-- The texts of an output whose versions the client does not have, C# first. -/
def due (s : DocumentSnapshot) (o : Output) (has : Option PublishedVersions) : List Publication :=
  let entry (language : Language) (text : Text) (version : Version) : Publication :=
    { language, project := s.project.host.path, document := s.state.host.path, text, version }
  (if has.all (·.csharp != o.csharp) then [entry .csharp o.compilation.csharp.code o.csharp] else []) ++
    (if has.all (·.html != o.html) then [entry .html o.compilation.html.code o.html] else [])

/-- Sends what the client does not have of a document. A document without output is left as it is. -/
def publish (state : Publisher × Memory) (s : DocumentSnapshot) :
    (Publisher × Memory) × WorkOutcome DocumentSnapshot :=
  let (p, m) := state
  match s.output.run m with
  | (.error _, m) => ((p, m), { fails := true })
  | (.ok o, m) =>
    let key := (s.project.host.path, s.state.host.path)
    let sent := (due s o (p.published.lookup key)).reverse ++ p.sent
    let published := (key, ⟨o.csharp, o.html⟩) :: p.published.filter (·.1 != key)
    (({ p with published, sent }, m), {})

/-- Lets everything that waits be sent. -/
def flush (p : Publisher) (w : Workspace) : Publisher × Workspace :=
  let (queue, p, memory) := p.queue.window publish (p, w.memory)
  ({ p with queue }, { w with memory })

end Publisher

end RazorLang
