import RazorLang.Configuration.FileKind
import RazorLang.Configuration.LanguageVersion
import RazorLang.TagHelper.Basic

/-!
# What the host tells about projects

The host, an editor or a build, says which projects and documents there are. A document has the path of its
file and its path in the project, from which follow its kind and the places where its imports may be.
-/

namespace RazorLang

/-- How documents of a project are compiled. -/
structure Configuration where
  name : Text := "MVC-3.0"
  languageVersion : LanguageVersion := .latest
  deriving DecidableEq, Repr

/-- A project of the host. -/
structure HostProject where
  path : Text
  configuration : Configuration := {}
  rootNamespace : Option Text := none
  deriving DecidableEq, Repr

namespace HostProject

/-- The path of the folder that the project file is in, with its last separator. -/
def directory (p : HostProject) : Text :=
  p.path.take (p.path.length - (FileKind.fileName p.path).length)

end HostProject

/-- A document of a project. -/
structure HostDocument where
  /-- The file. -/
  path : Text
  /-- The path within the project, with forward slashes. -/
  target : Text
  fileKind : FileKind
  deriving DecidableEq, Repr

namespace HostDocument

/-- The document at a path within the project; if no kind is given, the path decides. -/
def new (path target : Text) (fileKind : Option FileKind := none) : HostDocument :=
  let target := target.map fun c => if c == '\\' then '/' else c
  ⟨path, target, fileKind.getD (.ofPath target)⟩

/-- The paths of the folders above a file, outermost first, each with its last separator. -/
def foldersFrom (outer : Text) : List Text → List Text
  | [] => []
  | [_] => [outer]
  | folder :: rest => outer :: foldersFrom (outer ++ folder ++ "/") rest

/-- The folders that a document is in, outermost first. -/
def folders (d : HostDocument) : List Text := foldersFrom [] (Text.splitAll (· == '/') d.target)

/-- Where the imports of a document may be, outermost first. -/
def importTargets (d : HostDocument) : List Text :=
  (d.folders.map (· ++ d.fileKind.importFile)).filter (· != d.target)

end HostDocument

/-- What the host has found out about a project: the tag helpers that it refers to, and the version of
    C# that it is compiled with. -/
structure Discovery where
  tagHelpers : List TagHelper := []
  csharpVersion : Option Text := none
  deriving DecidableEq, Repr

end RazorLang
