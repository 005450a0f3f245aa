import RazorLang.Text.Basic

/-!
# Tag helpers

A `TagHelper` describes a class of the project that takes part in markup: a tag helper proper, a
component, or a parameter of a component that takes child content. Its rules say which elements it
applies to, and its type name says where it lives.
-/

namespace RazorLang

/-- The kinds of classes that elements are bound to. -/
inductive TagHelperKind where
  | tagHelper
  | component
  | childContent
  deriving DecidableEq, Repr, Inhabited

namespace TagHelperKind

/-- The name of a kind. -/
def name : TagHelperKind → Text
  | tagHelper => "TagHelper"
  | component => "Component"
  | childContent => "ChildContent"

/-- The kind with a given name. -/
def ofName? (n : Text) : Option TagHelperKind :=
  [tagHelper, component, childContent].find? (·.name == n)

/-- Components and their child content. -/
def isComponent : TagHelperKind → Bool
  | tagHelper => false
  | component | childContent => true

end TagHelperKind

/-- A rule for the elements that a tag helper applies to. -/
structure TagRule where
  /-- The element's name; `*` stands for every name. -/
  tag : Text := []
  /-- Attributes that the element must have. -/
  attributes : List Text := []
  /-- The element that must enclose it. -/
  parent : Option Text := none
  deriving DecidableEq, Repr, Inhabited

/-- The rule applies to an element with a name, attributes and enclosing element. Only the name can be
    compared with regard to case. -/
def TagRule.applies (r : TagRule) (tag : Text) (attributes : List Text) (parent : Option Text)
    (ordinal : Bool) : Bool :=
  (r.tag == ['*'] || (if ordinal then r.tag == tag else Text.sameIgnoringCase r.tag tag)) &&
    (match r.parent with
      | none => true
      | some wanted => parent.any (Text.sameIgnoringCase · wanted)) &&
    r.attributes.all fun wanted => attributes.any (Text.sameIgnoringCase · wanted)

/-- An attribute that stands for a property of the tag helper. -/
structure BoundAttribute where
  name : Text := []
  property : Text := []
  type : Text := []
  deriving DecidableEq, Repr, Inhabited

/-- Namespace and name of a type: what is before and after the last dot that is not inside its type
    arguments. -/
def splitNamespace (type : Text) : Text × Text :=
  match Text.splitLast? (· == '.') (type.takeWhile (· != '<')) with
  | some (space, _) => (space, type.drop (space.length + 1))
  | none => ([], type)

/-- Further properties of a tag helper by name, sorted by name. -/
abbrev Metadata := List (Text × Text)

namespace Metadata

/-- The property of a name. -/
def get? (m : Metadata) (key : Text) : Option Text := (m.find? (·.1 == key)).map Prod.snd

/-- Sets the property of a name. -/
def set (key value : Text) : Metadata → Metadata
  | [] => [(key, value)]
  | (k, v) :: m =>
    match Text.compare key k with
    | .lt => (key, value) :: (k, v) :: m
    | .eq => (key, value) :: m
    | .gt => (k, v) :: set key value m

end Metadata

/-- A class that takes part in markup. -/
structure TagHelper where
  kind : TagHelperKind := .tagHelper
  name : Text := []
  assembly : Text := []
  displayName : Text := []
  rules : List TagRule := []
  attributes : List BoundAttribute := []
  metadata : Metadata := []
  deriving DecidableEq, Repr, Inhabited

namespace TagHelper

/-- The full name of the class. -/
def typeName (h : TagHelper) : Text := (h.metadata.get? "Common.TypeName").getD h.name

/-- The namespace of the class. -/
def typeNamespace (h : TagHelper) : Text :=
  (h.metadata.get? "Common.TypeNamespace").getD (splitNamespace h.typeName).1

/-- The name of the class within its namespace. -/
def typeIdentifier (h : TagHelper) : Text :=
  (h.metadata.get? "Common.TypeNameIdentifier").getD (splitNamespace h.typeName).2

/-- The class is in scope everywhere, because elements name it in full. -/
def isFullyQualified (h : TagHelper) : Bool :=
  h.metadata.get? "Components.NameMatch" == some "Components.FullyQualifiedNameMatch".toList

/-- The class stands for child content of a component. -/
def isChildContent (h : TagHelper) : Bool :=
  h.kind == .childContent || h.metadata.get? "Components.ChildContent" == some "true".toList

/-- The name of the class was made up by a compiler. -/
def isMangled (h : TagHelper) : Bool := ("__generated__" : Text).isPrefixOf h.typeIdentifier

/-- The namespace that has to be in scope for the class to be: child content follows the component
    that it belongs to. -/
def scopeNamespace (h : TagHelper) : Text :=
  if h.isChildContent then (splitNamespace (splitNamespace h.typeName).1).1 else h.typeNamespace

/-- The name of the elements that the first rule is for. -/
def tag? (h : TagHelper) : Option Text := h.rules.head?.map (·.tag)

/-- Some rule applies to an element; components distinguish upper and lower case. -/
def applies (h : TagHelper) (tag : Text) (attributes : List Text) (parent : Option Text) : Bool :=
  h.rules.any (·.applies tag attributes parent h.kind.isComponent)

end TagHelper

/-- The tag helpers that an element is bound to, by its name without the tag prefix. -/
structure Binding where
  tag : Text
  helpers : List TagHelper
  deriving DecidableEq, Repr, Inhabited

/-- The first component among the tag helpers of an element. -/
def Binding.component? (b : Binding) : Option TagHelper := b.helpers.find? (·.kind == .component)

end RazorLang
