import RazorLang.Text.Basic

/-!
# Values by path

A `PathMap` keeps values under paths, in the order of the paths, which is the order in which projects and
documents are listed. A `PathSet` is a set of paths in that order.
-/

namespace RazorLang

/-- Values under paths, in the order of the paths. -/
abbrev PathMap (α : Type) := List (Text × α)

namespace PathMap

variable {α β : Type}

/-- The value under a path. -/
def get? (m : PathMap α) (path : Text) : Option α := m.lookup path

/-- Puts a value under a path, in the place of the one that is there. -/
def set (path : Text) (a : α) : PathMap α → PathMap α
  | [] => [(path, a)]
  | (p, b) :: rest =>
    match Text.compare path p with
    | .lt => (path, a) :: (p, b) :: rest
    | .eq => (path, a) :: rest
    | .gt => (p, b) :: set path a rest

/-- Leaves out what is under a path. -/
def erase (m : PathMap α) (path : Text) : PathMap α := m.filter (·.1 != path)

/-- There is something under a path. -/
def contains (m : PathMap α) (path : Text) : Bool := (m.get? path).isSome

/-- The paths, in order. -/
def paths (m : PathMap α) : List Text := m.map Prod.fst

/-- The values, in the order of their paths. -/
def values (m : PathMap α) : List α := m.map Prod.snd

end PathMap

/-- A set of paths, in order. -/
abbrev PathSet := List Text

namespace PathSet

/-- Puts a path into a set. -/
def add (path : Text) : PathSet → PathSet
  | [] => [path]
  | p :: rest =>
    match Text.compare path p with
    | .lt => path :: p :: rest
    | .eq => p :: rest
    | .gt => p :: add path rest

/-- Takes a path out of a set. -/
def remove (s : PathSet) (path : Text) : PathSet := s.filter (· != path)

end PathSet

end RazorLang
