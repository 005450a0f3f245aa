import RazorLang.Configuration.FileKind
import RazorLang.Source.Location

/-!
# Directives

The directives of Razor: what each is called, what follows its name, and the kinds of files that know
it. `@using` is told from the statement of that name by the grammar, so no name looks it up.
-/

namespace RazorLang

/-- The directives. -/
inductive Directive where
  | importNamespace
  | addTagHelper
  | removeTagHelper
  | tagHelperPrefix
  | model
  | inherits
  | inject
  | setNamespace
  | page
  | layout
  | implements
  | code
  | functions
  | defineSection
  deriving DecidableEq, Repr

/-- What a value of a directive is read as. -/
inductive ValueKind where
  | type
  | member
  | namespaceName
  | optionalString
  | text
  deriving DecidableEq, Repr

/-- The name of a kind of value. -/
def ValueKind.name : ValueKind → Text
  | type => "Type"
  | member => "Member"
  | namespaceName => "Namespace"
  | optionalString => "OptionalString"
  | text => "Text"

/-- What follows the name of a directive. -/
inductive DirectiveShape where
  /-- Values up to the end of the line. -/
  | values (kinds : List ValueKind)
  /-- The rest of the line as one text. -/
  | restOfLine
  /-- A block of members. -/
  | codeBlock
  /-- Values and a block of markup. -/
  | markupBlock (kinds : List ValueKind)
  deriving DecidableEq, Repr

/-- A value that a directive is given. -/
structure DirectiveValue where
  kind : ValueKind
  text : Text
  span : Span
  deriving DecidableEq, Repr

/-- A directive with its values. -/
structure DirectiveUse where
  directive : Directive
  values : List DirectiveValue
  deriving DecidableEq, Repr

/-- The text of the first value. -/
def DirectiveUse.firstText? (u : DirectiveUse) : Option Text := u.values.head?.map (·.text)

namespace Directive

/-- The directives that a name after a transition can stand for. -/
def named : List Directive := [
  addTagHelper, removeTagHelper, tagHelperPrefix, model, inherits, inject, setNamespace, page, layout,
  implements, code, functions, defineSection]

/-- What a directive is called. -/
def name : Directive → Text
  | importNamespace => "using"
  | addTagHelper => "addTagHelper"
  | removeTagHelper => "removeTagHelper"
  | tagHelperPrefix => "tagHelperPrefix"
  | model => "model"
  | inherits => "inherits"
  | inject => "inject"
  | setNamespace => "namespace"
  | page => "page"
  | layout => "layout"
  | implements => "implements"
  | code => "code"
  | functions => "functions"
  | defineSection => "section"

/-- What follows the name of a directive. -/
def shape : Directive → DirectiveShape
  | importNamespace | setNamespace => .values [.namespaceName]
  | addTagHelper | removeTagHelper | tagHelperPrefix => .restOfLine
  | model | inherits | layout | implements => .values [.type]
  | inject => .values [.type, .member]
  | page => .values [.optionalString]
  | code | functions => .codeBlock
  | defineSection => .markupBlock [.member]

/-- The kinds of files that know a directive. -/
def isKnownIn (d : Directive) (kind : FileKind) : Bool :=
  match d with
  | model | defineSection => !kind.isComponent
  | layout | implements | code => kind.isComponent
  | page => kind != .componentImport
  | _ => true

/-- The directive that a name stands for in a kind of file. -/
def ofName? (kind : FileKind) (n : Text) : Option Directive :=
  (named.find? (·.name == n)).filter (·.isKnownIn kind)

end Directive

end RazorLang
