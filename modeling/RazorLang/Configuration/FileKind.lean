import RazorLang.Text.Basic

/-!
# Kinds of Razor files

A document is a page or view (`legacy`), a component, or the imports that a folder gives to its
components. The kind follows from the file's name.
-/

namespace RazorLang

/-- The kinds of Razor files. -/
inductive FileKind where
  | legacy
  | component
  | componentImport
  deriving DecidableEq, Repr, Inhabited

namespace FileKind

/-- The name of the kind. -/
def name : FileKind → Text
  | .legacy => "Legacy"
  | .component => "Component"
  | .componentImport => "ComponentImport"

/-- The kind with a given name. -/
def ofName? (n : Text) : Option FileKind :=
  [legacy, component, componentImport].find? (·.name == n)

/-- The file that gives imports to the components of its folder. -/
def componentImports : Text := "_Imports.razor"

/-- The file that gives imports to the views of its folder. -/
def viewImports : Text := "_ViewImports.cshtml"

/-- Separators between the parts of a path, on any system. -/
def isPathSeparator (c : Char) : Bool := c == '/' || c == '\\'

/-- The last part of a path. -/
def fileName (path : Text) : Text :=
  match Text.splitLast? isPathSeparator path with
  | some (_, file) => file
  | none => path

/-- The kind of the file at a path, whatever the case of its letters. -/
def ofPath (path : Text) : FileKind :=
  let file := fileName path
  if Text.sameIgnoringCase file componentImports then .componentImport
  else if (".razor" : Text).isSuffixOf (Text.toLower file) then .component
  else .legacy

/-- Components and the imports of components. -/
def isComponent : FileKind → Bool
  | .legacy => false
  | .component | .componentImport => true

/-- The name of the files that a document of this kind takes its imports from. -/
def importFile (k : FileKind) : Text := if k.isComponent then componentImports else viewImports

/-- The kind of the imports of a document of this kind. -/
def ofImports (k : FileKind) : FileKind := if k.isComponent then .componentImport else .legacy

end FileKind

end RazorLang
