import RazorLang.Configuration.Fault

/-!
# Faults of a workspace

A `WorkspaceFault` is why a request to a workspace fails: the engine refuses, a text cannot be read, the
request is called off, or it breaks a rule of the workspace.
-/

namespace RazorLang

/-- What can be done to a workspace. -/
inductive Operation where
  | openSolution
  | closeSolution
  | addProject
  | removeProject
  | configureProject
  | discover
  | addDocument
  | removeDocument
  | openDocument
  | closeDocument
  | changeText
  | changeLoader
  deriving DecidableEq, Repr

/-- What an operation is called in a message. -/
def Operation.name : Operation → Text
  | openSolution => "solution_opened"
  | closeSolution => "solution_closing"
  | addProject => "project_added"
  | removeProject => "project_removed"
  | configureProject => "project_configuration_changed"
  | discover => "project_workspace_state_changed"
  | addDocument => "document_added"
  | removeDocument => "document_removed"
  | openDocument => "document_opened"
  | closeDocument => "document_closed"
  | changeText => "document_changed"
  | changeLoader => "document_loader_changed"

/-- Why a request to a workspace fails. -/
inductive WorkspaceFault where
  | engine (fault : Fault)
  | unreadable (path reason : Text)
  | cancelled
  | wrongThread (operation : Operation)
  | foreignContext
  deriving DecidableEq, Repr

namespace WorkspaceFault

/-- The wording of a fault. -/
def message : WorkspaceFault → Text
  | engine fault => fault.render
  | unreadable path reason => "failed to load text for '" ++ path ++ "': " ++ reason
  | cancelled => "operation was cancelled"
  | wrongThread operation =>
    "'" ++ operation.name ++ "' must run on the project snapshot dispatcher thread"
  | foreignContext =>
    "invalid argument: compilation context belongs to a different tag helper cache"

/-- The request was called off. -/
def isCancelled : WorkspaceFault → Bool
  | cancelled | engine .cancelled => true
  | _ => false

end WorkspaceFault

end RazorLang
