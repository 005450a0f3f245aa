import RazorLang.Generation.Emission
import RazorLang.Generation.Printer

/-!
# Printing what a document emits

Each emission is printed by itself; what passes from one to the next is a `BodyState`: the sequence number of
the next frame, how many fragments are open, and how many tag helpers have begun. Code for an editor leaves
markup out and keeps every piece of code, so both kinds of code copy the same pieces of the source.
-/

namespace RazorLang

/-- The kind of code that is printed. -/
structure BodyKind where
  component : Bool
  designTime : Bool
  deriving DecidableEq, Repr

/-- What passes from one emission to the next. -/
structure BodyState where
  /-- The sequence number of the next frame. -/
  sequence : Nat := 0
  /-- Fragments that are open. -/
  fragments : Nat := 0
  /-- Tag helpers that have begun. -/
  helpers : Nat := 0
  deriving DecidableEq, Repr

/-- The namespace of the components that generated code refers to. -/
def componentsSpace : Text := "global::Microsoft.AspNetCore.Components"

/-- The namespace of the tag helpers that generated code refers to. -/
def tagHelpersSpace : Text := "global::Microsoft.AspNetCore.Razor.TagHelpers"

/-- The namespace of the runtime of tag helpers. -/
def tagHelperRuntime : Text := "global::Microsoft.AspNetCore.Razor.Runtime.TagHelpers"

namespace BodyState

/-- The name of the builder inside some fragments. -/
def builderAt : Nat → Text
  | 0 => "__builder"
  | n + 1 => "__builder" ++ Text.ofNat (n + 2)

/-- The builder that frames are added to. -/
def builder (s : BodyState) : Text := builderAt s.fragments

/-- The state behind a frame that has a sequence number. -/
def numbered (s : BodyState) : BodyState := { s with sequence := s.sequence + 1 }

/-- The start of a call that adds a frame with a sequence number. -/
def call (s : BodyState) (method : Text) : Text :=
  s.builder ++ "." ++ method ++ "(" ++ Text.ofNat s.sequence

end BodyState

/-- A number in 32 hexadecimal digits. -/
def helperId (n : Nat) : Text :=
  let digits := Text.hexadecimal n
  List.replicate (32 - digits.length) '0' ++ digits

namespace Emission

/-- Prints the value of an attribute. -/
def printValue : AttributeCode → Print
  | .isSet => .write "true"
  | .literal t => .write (stringLiteral t)
  | .code t span => .copy t span

/-- Prints markup: a call that writes it, unless the code is for an editor. -/
def printMarkup (k : BodyKind) (s : BodyState) (t : Text) : BodyState × List Print :=
  if k.designTime then (s, [])
  else if k.component then
    (s.numbered,
      [.freshLine, .line (s.call "AddMarkupContent" ++ ", " ++ stringLiteral t ++ ");")])
  else (s, [.freshLine, .line ("WriteLiteral(" ++ stringLiteral t ++ ");")])

/-- Prints an expression, unless it is blank. -/
def printExpression (k : BodyKind) (s : BodyState) (t : Text) (span : Span) :
    BodyState × List Print :=
  if Text.isBlank t then (s, [])
  else if k.designTime then (s, [.freshLine, .write "__o = ", .copy t span, .line ";"])
  else if k.component then
    (s.numbered,
      [.freshLine, .write (s.call "AddContent" ++ ", "), .copy t span, .line ");"])
  else (s, [.freshLine, .write "Write(", .copy t span, .line ");"])

/-- Prints a piece of code on lines of its own, unless it is blank. -/
def printCode (t : Text) (span : Span) : List Print :=
  if Text.isBlank t then [] else [.freshLine, .copy t span, .freshLine]

/-- The end of a nested function. -/
def closeNested (tail : Text) : List Print := [.dedent, .line "\x7d", .line tail]

/-- Prints the capture of a reference to an element or a component. -/
def printReference (s : BodyState) (component : Option Text) (value : AttributeCode) : List Print :=
  let (method, target) : Text × Text :=
    match component with
    | some type => ("AddComponentReferenceCapture", "global::" ++ type)
    | none => ("AddElementReferenceCapture", componentsSpace ++ ".ElementReference")
  [.write (s.call method ++ ", (__value) => \x7b "), printValue value,
    .line (" = (" ++ target ++ ")__value; \x7d);")]

/-- Prints one emission. -/
def print (k : BodyKind) (s : BodyState) : Emission → BodyState × List Print
  | markup t => printMarkup k s t
  | expression t span => printExpression k s t span
  | statement t span => (s, printCode t span)
  | sectionStart name =>
    (s, [.freshLine, .write "DefineSection(", .write (stringLiteral name),
      .line ", async() => \x7b", .indent])
  | sectionEnd => (s, closeNested ");")
  | helperStart tag mode =>
    let id := s.helpers + 1
    ({ s with helpers := id },
      [.freshLine,
        .line ("__tagHelperExecutionContext = __tagHelperScopeManager.Begin(" ++ stringLiteral tag ++
          ", " ++ tagHelpersSpace ++ ".TagMode." ++ mode.name ++ ", \"" ++ helperId id ++
          "\", async() => \x7b"),
        .indent])
  | helperContentEnd => (s, closeNested ");")
  | helperCreate type =>
    (s, [.line (fieldName type ++ " = CreateTagHelper<global::" ++ type ++ ">();"),
      .line ("__tagHelperExecutionContext.Add(" ++ fieldName type ++ ");")])
  | helperProperty type property name value =>
    (s, [.write (fieldName type ++ "." ++ property ++ " = "), printValue value, .line ";",
      .line ("__tagHelperExecutionContext.AddTagHelperAttribute(" ++ stringLiteral name ++ ", " ++
        fieldName type ++ "." ++ property ++ ", " ++ tagHelpersSpace ++
        ".HtmlAttributeValueStyle.DoubleQuotes);")])
  | helperAttribute name value =>
    (s, [.line ("__tagHelperExecutionContext.AddHtmlAttribute(" ++ stringLiteral name ++ ", " ++
      stringLiteral value ++ ", " ++ tagHelpersSpace ++ ".HtmlAttributeValueStyle.DoubleQuotes);")])
  | helperEnd =>
    (s, [.line "await __tagHelperRunner.RunAsync(__tagHelperExecutionContext);",
      .line "Write(__tagHelperExecutionContext.Output);",
      .line "__tagHelperExecutionContext = __tagHelperScopeManager.End();"])
  | elementStart name =>
    (s.numbered,
      [.freshLine, .line (s.call "OpenElement" ++ ", " ++ stringLiteral name ++ ");")])
  | elementEnd => (s, [.freshLine, .line (s.builder ++ ".CloseElement();")])
  | componentStart type =>
    (s.numbered,
      [.freshLine, .line (s.call ("OpenComponent<global::" ++ type ++ ">") ++ ");")])
  | componentEnd => (s, [.freshLine, .line (s.builder ++ ".CloseComponent();")])
  | setAttribute name value =>
    (s.numbered,
      [.write (s.call "AddAttribute" ++ ", " ++ stringLiteral name ++ ", "), printValue value,
        .line ");"])
  | key value => (s, [.write (s.builder ++ ".SetKey("), printValue value, .line ");"])
  | reference component value => (s.numbered, printReference s component value)
  | callback name value =>
    (s.numbered,
      [.write (s.call "AddAttribute" ++ ", " ++ stringLiteral name ++ ", " ++ componentsSpace ++
          ".EventCallback.Factory.Create(this, "),
        printValue value, .line "));"])
  | fragmentStart name =>
    ({ s.numbered with fragments := s.fragments + 1 },
      [.freshLine,
        .line (s.call "AddAttribute" ++ ", " ++ stringLiteral name ++ ", (" ++ componentsSpace ++
          ".RenderFragment)((" ++ BodyState.builderAt (s.fragments + 1) ++ ") => \x7b"),
        .indent])
  | fragmentEnd => ({ s with fragments := s.fragments - 1 }, closeNested "));")

/-- Prints emissions in order. -/
def printAll (k : BodyKind) (s : BodyState) : List Emission → List Print
  | [] => []
  | e :: rest =>
    let (s, prints) := print k s e
    prints ++ printAll k s rest

end Emission

end RazorLang
