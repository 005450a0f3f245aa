import RazorLang.Json.Basic
import RazorLang.TagHelper.Basic

/-!
# Tag helpers as JSON

How a project hands its tag helpers over: a list of objects in which every member may be missing and unknown
members are ignored. `TagHelper.ofJson?` reads what `TagHelper.toJson` writes.
-/

namespace RazorLang

namespace Json

/-- The members of a record: those of an object, or the items of an array under the record's names in
    order. -/
def record? (names : List Text) : Json → Option (List (Text × Json))
  | object members => some members
  | array items => if items.length ≤ names.length then some (names.zip items) else none
  | _ => none

/-- Reads a member of a record; a missing one has a default, and none may be given twice. -/
def member? {α : Type} (members : List (Text × Json)) (name : Text) (default : α)
    (read : Json → Option α) : Option α :=
  match members.filter (·.1 == name) with
  | [] => some default
  | [(_, value)] => read value
  | _ => none

/-- Reads all items of an array. -/
def listOf? {α : Type} (read : Json → Option α) (j : Json) : Option (List α) :=
  j.items?.bind fun items => items.mapM read

/-- Reads a text that may be null. -/
def nullable? : Json → Option (Option Text)
  | null => some none
  | string t => some (some t)
  | _ => none

end Json

open Json

/-- Reads a rule. -/
def TagRule.ofJson? (j : Json) : Option TagRule := do
  let m ← record? ["tag_name", "required_attributes", "parent_tag"] j
  return {
    tag := ← member? m "tag_name" [] text?
    attributes := ← member? m "required_attributes" [] (listOf? text?)
    parent := ← member? m "parent_tag" none nullable? }

/-- Writes a rule. -/
def TagRule.toJson (r : TagRule) : Json :=
  object [("tag_name", string r.tag), ("required_attributes", array (r.attributes.map string)),
    ("parent_tag", ofText? r.parent)]

/-- Reads a bound attribute. -/
def BoundAttribute.ofJson? (j : Json) : Option BoundAttribute := do
  let m ← record? ["name", "property_name", "type_name"] j
  return {
    name := ← member? m "name" [] text?
    property := ← member? m "property_name" [] text?
    type := ← member? m "type_name" [] text? }

/-- Writes a bound attribute. -/
def BoundAttribute.toJson (a : BoundAttribute) : Json :=
  object [("name", string a.name), ("property_name", string a.property),
    ("type_name", string a.type)]

/-- Reads metadata: an object of texts, in which the last member of a name counts. -/
def Metadata.ofJson? (j : Json) : Option Metadata := do
  let members ← j.members?
  members.foldlM (fun m (key, value) => (text? value).map fun t => Metadata.set key t m) []

/-- Writes metadata. -/
def Metadata.toJson (m : Metadata) : Json := object (m.map fun (key, value) => (key, string value))

/-- Reads a kind: its name, or an object whose one member has that name and is null. -/
def TagHelperKind.ofJson? : Json → Option TagHelperKind
  | string n | object [(n, null)] => ofName? n
  | _ => none

namespace TagHelper

/-- The members of a tag helper in order. -/
def memberNames : List Text :=
  ["kind", "name", "assembly_name", "display_name", "tag_matching_rules", "bound_attributes", "metadata"]

/-- Reads a tag helper. -/
def ofJson? (j : Json) : Option TagHelper := do
  let m ← record? memberNames j
  return {
    kind := ← member? m "kind" .tagHelper TagHelperKind.ofJson?
    name := ← member? m "name" [] text?
    assembly := ← member? m "assembly_name" [] text?
    displayName := ← member? m "display_name" [] text?
    rules := ← member? m "tag_matching_rules" [] (listOf? TagRule.ofJson?)
    attributes := ← member? m "bound_attributes" [] (listOf? BoundAttribute.ofJson?)
    metadata := ← member? m "metadata" [] Metadata.ofJson? }

/-- Writes a tag helper with all its members. -/
def toJson (h : TagHelper) : Json :=
  object [("kind", string h.kind.name), ("name", string h.name), ("assembly_name", string h.assembly),
    ("display_name", string h.displayName), ("tag_matching_rules", array (h.rules.map TagRule.toJson)),
    ("bound_attributes", array (h.attributes.map BoundAttribute.toJson)),
    ("metadata", h.metadata.toJson)]

/-- Reads a list of tag helpers. -/
def listOfJson? (j : Json) : Option (List TagHelper) := listOf? ofJson? j

end TagHelper

end RazorLang
