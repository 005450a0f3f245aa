import RazorLang.Proofs.Text.Splitting
import RazorLang.TagHelper.Resolution

/-!
# Child content and its component

The child content of a component is named for it: the name of the component, a dot, and the name of a parameter. What
is in scope of a document is decided by the namespace of a component, and for its child content by the namespace of
what stands before the last dot that is not inside of type arguments. The two are the same unless the component has
type arguments (`IsContentOf.scopeNamespace_eq`): then the parameter counts as part of the component's own name, and
one name too many is taken off. Names made up by a compiler are kept out by the last part of the name alone.

Main statement: `IsContentOf.mem_scope_iff_component` — when child content is in scope exactly where its component is.
-/

namespace RazorLang

open Text

/-! ## Names of types -/

/-- The part of a type's name before its type arguments. -/
def openName (type : Text) : Text := type.takeWhile (· != '<')

theorem not_mem_openName {type : Text} : '<' ∉ openName type := by
  intro h
  exact absurd (List.mem_takeWhile_imp h) (by decide)

theorem openName_eq_self {type : Text} (h : '<' ∉ type) : openName type = type :=
  List.takeWhile_eq_self_iff.mpr (bne_of_not_mem h)

/-- What is put behind type arguments is part of them. -/
theorem openName_append_of_mem {type : Text} (h : '<' ∈ type) (behind : Text) :
    openName (type ++ behind) = openName type := by
  obtain ⟨u, v, rfl, hu⟩ := List.eq_append_cons_of_mem h
  rw [openName, openName, List.append_assoc, List.cons_append, (takeWhile_append_cons (bne_of_not_mem hu) rfl _).1,
    (takeWhile_append_cons (bne_of_not_mem hu) rfl _).1]

theorem openName_append {space : Text} (hspace : '<' ∉ space) (name : Text) :
    openName (space ++ '.' :: name) = space ++ '.' :: openName name := by
  rw [openName, List.takeWhile_append_of_pos (bne_of_not_mem hspace)]
  rfl

theorem splitNamespace_append {space name : Text} (hspace : '<' ∉ space) (hname : '.' ∉ openName name) :
    splitNamespace (space ++ '.' :: name) = (space, name) := by
  have hopen : (space ++ '.' :: name).takeWhile (· != '<') = space ++ '.' :: openName name :=
    openName_append hspace name
  rw [splitNamespace, hopen, splitLast?_append rfl space (beq_of_not_mem hname)]
  dsimp only
  rw [← List.drop_drop, List.drop_left]
  rfl

theorem splitNamespace_plain {name : Text} (hname : '.' ∉ openName name) : splitNamespace name = ([], name) := by
  have hnone : splitLast? (· == '.') (name.takeWhile (· != '<')) = none :=
    splitLast?_eq_none.mpr (beq_of_not_mem hname)
  rw [splitNamespace, hnone]

/-- A type stands in no namespace, or behind the one that is split off. -/
theorem splitNamespace_cases (type : Text) :
    ('.' ∉ openName type ∧ splitNamespace type = ([], type)) ∨
      ∃ space name, type = space ++ '.' :: name ∧ '<' ∉ space ∧ '.' ∉ openName name ∧
        splitNamespace type = (space, name) := by
  rcases exists_splitLast (· == '.') (openName type) with hnone | ⟨space, c, last, hopen, hc, hlast⟩
  · have hplain : '.' ∉ openName type := fun h => absurd (hnone _ h) (by decide)
    exact .inl ⟨hplain, splitNamespace_plain hplain⟩
  · obtain rfl := beq_iff_eq.mp hc
    have hspace : '<' ∉ space := by
      intro h
      have hmem : '<' ∈ openName type := hopen ▸ List.mem_append_left _ h
      exact not_mem_openName hmem
    obtain ⟨arguments, rfl⟩ : ∃ arguments, type = space ++ '.' :: (last ++ arguments) := by
      refine ⟨type.dropWhile (· != '<'), ?_⟩
      rw [← List.cons_append, ← List.append_assoc, ← hopen, openName, List.takeWhile_append_dropWhile]
    rw [openName_append hspace, List.append_cancel_left_eq, List.cons.injEq] at hopen
    have hname : '.' ∉ openName (last ++ arguments) := by
      rw [hopen.2]
      exact fun h => absurd (hlast _ h) (by decide)
    exact .inr ⟨space, last ++ arguments, rfl, hspace, hname, splitNamespace_append hspace hname⟩

/-! ## The names of child content -/

/-- The name of a type within its namespace was made up by a compiler. -/
def IsMadeUp (name : Text) : Prop := "__generated__".toList <+: name

instance : DecidablePred IsMadeUp := fun name => inferInstanceAs (Decidable ("__generated__".toList <+: name))

/-- No made-up beginning of a name has a dot in it. -/
theorem isMadeUp_append {name : Text} (parameter : Text) : IsMadeUp (name ++ '.' :: parameter) ↔ IsMadeUp name := by
  refine ⟨fun h => ?_, fun h => h.trans (List.prefix_append name _)⟩
  rcases Nat.lt_or_ge name.length "__generated__".toList.length with hshort | hlong
  · have hdot : name ++ ['.'] <+: "__generated__".toList := by
      refine List.prefix_of_prefix_length_le ⟨parameter, List.append_assoc name ['.'] parameter⟩ h ?_
      rw [List.length_append]
      exact hshort
    exact absurd (hdot.subset (List.mem_append_right name (List.mem_singleton_self '.'))) (by decide)
  · exact List.prefix_of_prefix_length_le h (List.prefix_append name _) hlong

namespace TagHelper

/-- The child content that a component has under the name of a parameter, where neither has properties that say
    otherwise. -/
structure IsContentOf (content component : TagHelper) (parameter : Text) : Prop where
  component_kind : component.kind = .component
  content_kind : content.kind = .childContent
  component_metadata : component.metadata = []
  content_metadata : content.metadata = []
  name_eq : content.name = component.name ++ '.' :: parameter
  noDot : '.' ∉ parameter
  noArguments : '<' ∉ parameter

/-- The child content of a component of this name is in scope exactly where the component is. -/
def Follows (component parameter : Text) : Prop :=
  if '<' ∈ component then IsMadeUp (splitNamespace component).2 ∨ (splitNamespace component).1 = []
  else (IsMadeUp (splitNamespace component).2 ↔ IsMadeUp parameter)

instance (component parameter : Text) : Decidable (Follows component parameter) :=
  inferInstanceAs <| Decidable <|
    if '<' ∈ component then IsMadeUp (splitNamespace component).2 ∨ (splitNamespace component).1 = []
    else (IsMadeUp (splitNamespace component).2 ↔ IsMadeUp parameter)

variable {component content : TagHelper} {parameter : Text}

/-- Behind type arguments the parameter counts as part of the component's name. -/
theorem IsContentOf.splitNamespace_eq (h : content.IsContentOf component parameter) :
    splitNamespace content.name =
      if '<' ∈ component.name then
        ((splitNamespace component.name).1, (splitNamespace component.name).2 ++ '.' :: parameter)
      else (component.name, parameter) := by
  rw [h.name_eq]
  split
  · next harguments =>
    rcases splitNamespace_cases component.name with ⟨hplain, hsplit⟩ | ⟨space, name, htype, hspace, hname, hsplit⟩
    · rw [hsplit]
      exact splitNamespace_plain (openName_append_of_mem harguments _ ▸ hplain)
    · have hmore : '<' ∈ name := by
        rw [htype, List.mem_append, List.mem_cons] at harguments
        exact (harguments.resolve_left hspace).resolve_left (by decide)
      rw [hsplit, htype, List.append_assoc, List.cons_append]
      exact splitNamespace_append hspace (openName_append_of_mem hmore _ ▸ hname)
  · next hplain =>
    refine splitNamespace_append hplain ?_
    rw [openName_eq_self h.noArguments]
    exact h.noDot

theorem typeName_of_metadata {x : TagHelper} (h : x.metadata = []) : x.typeName = x.name := by
  rw [typeName, h]
  rfl

theorem typeIdentifier_of_metadata {x : TagHelper} (h : x.metadata = []) :
    x.typeIdentifier = (splitNamespace x.name).2 := by
  rw [typeIdentifier, typeName_of_metadata h, h]
  rfl

theorem IsContentOf.scopeNamespace_component (h : content.IsContentOf component parameter) :
    component.scopeNamespace = (splitNamespace component.name).1 := by
  have hother : component.isChildContent = false := by
    rw [isChildContent, h.component_kind, h.component_metadata]
    rfl
  rw [scopeNamespace, hother, if_neg Bool.false_ne_true, typeNamespace, typeName_of_metadata h.component_metadata,
    h.component_metadata]
  rfl

/-- Child content is looked for in the namespace of its component, and behind type arguments in the one around it. -/
theorem IsContentOf.scopeNamespace_content (h : content.IsContentOf component parameter) :
    content.scopeNamespace =
      if '<' ∈ component.name then (splitNamespace component.scopeNamespace).1 else component.scopeNamespace := by
  have hcontent : content.isChildContent = true := by
    rw [isChildContent, h.content_kind]
    rfl
  rw [scopeNamespace, if_pos hcontent, typeName_of_metadata h.content_metadata, h.scopeNamespace_component,
    h.splitNamespace_eq]
  split
  · rfl
  · rfl

/-- Child content is made up if the parameter is, and behind type arguments if the component is. -/
theorem IsContentOf.isMadeUp (h : content.IsContentOf component parameter) :
    IsMadeUp content.typeIdentifier ↔
      if '<' ∈ component.name then IsMadeUp component.typeIdentifier else IsMadeUp parameter := by
  rw [typeIdentifier_of_metadata h.content_metadata, typeIdentifier_of_metadata h.component_metadata,
    h.splitNamespace_eq]
  split
  · exact isMadeUp_append parameter
  · exact Iff.rfl

end TagHelper

/-! ## Scopes of components -/

namespace Resolution

/-- A namespace can be seen from a document, given its own and those it brings in. -/
def CanSee (space : Option Text) (imported : List Text) (other : Text) : Prop :=
  (∃ own ∈ space, isInScope other own = true) ∨ other ∈ imported

theorem isVisible_iff {space : Option Text} {imported : List Text} {x : TagHelper} (hkind : x.kind.isComponent = true)
    (hplain : x.metadata = []) :
    isVisible space imported x = true ↔ ¬ IsMadeUp x.typeIdentifier ∧ CanSee space imported x.scopeNamespace := by
  have hqualified : x.isFullyQualified = false := by
    rw [TagHelper.isFullyQualified, hplain]
    rfl
  rw [isVisible, hkind, hqualified, Bool.true_and, Bool.false_or, Bool.and_eq_true, Bool.not_eq_true',
    ← Bool.not_eq_true, TagHelper.isMangled, List.isPrefixOf_iff_prefix, Bool.or_eq_true, List.contains_iff_mem,
    Option.any_eq_true]
  rfl

/-- The namespaces that a document and its imports bring in. -/
def importedSpaces (document : ParsedDocument) (imports : List ParsedDocument) : List Text :=
  ((imports ++ [document]).flatMap ParsedDocument.chunks).filterMap fun (_, label) => importedSpace? label

theorem mem_resolve {document : ParsedDocument} (hkind : document.fileKind.isComponent = true)
    (imports : List ParsedDocument) {known : List TagHelper} (o : Options) {x : TagHelper} (hx : x ∈ known) :
    x ∈ (resolve document imports known o).scope.helpers ↔
      isVisible (namespaceOf? document imports o.rootNamespace) (importedSpaces document imports) x = true := by
  rw [resolve, if_pos hkind]
  exact List.mem_filter.trans (and_iff_right hx)

/-- A component without any text or folder is in the root namespace and brings in none. -/
theorem mem_resolve_empty {root : Text} (hroot : root ≠ []) {known : List TagHelper} {x : TagHelper}
    (hx : x ∈ known) :
    x ∈ (resolve (.parse .component (.anonymous [])) [] known { rootNamespace := some root }).scope.helpers ↔
      isVisible (some root) [] x = true := by
  have himported : importedSpaces (.parse .component (.anonymous [])) [] = [] := by decide +kernel
  have hown : (ParsedDocument.parse .component (.anonymous [])).lastValue? .setNamespace = none := by decide +kernel
  have hspace : namespaceOf? (.parse .component (.anonymous [])) [] (some root) = some root := by
    unfold namespaceOf?
    dsimp only
    rw [hown, Option.filter_some, if_pos (by rwa [Bool.not_eq_true', List.isEmpty_eq_false_iff])]
    show some (root ++ []) = some root
    rw [List.append_nil]
  rw [mem_resolve rfl [] { rootNamespace := some root } hx, himported, hspace]

/-- A namespace can be seen from a longer one with the same beginning if a dot is where that goes on. -/
theorem isInScope_append (a b : Text) : isInScope a (a ++ b) = true ↔ ∀ c ∈ b.head?, c = '.' := by
  rw [isInScope, if_pos (by rw [size_append]; exact Nat.le_add_right _ _)]
  dsimp only
  rw [after?_append]
  cases b with
  | nil => exact iff_of_true rfl nofun
  | cons c b => simp

/-- From some namespace, one can be seen and the one around it not, or the other way round. -/
theorem exists_tells_apart {space : Text} (hspace : space ≠ []) :
    ∃ root ≠ [], ¬ (isInScope (splitNamespace space).1 root = true ↔ isInScope space root = true) := by
  -- A namespace with nothing around it can be seen from itself, and the empty one cannot. From a namespace that only
  -- begins with the same text neither the namespace can be seen nor anything below it, but what is around it can.
  rcases splitNamespace_cases space with ⟨hplain, hsplit⟩ | ⟨outer, name, hname, -, -, hsplit⟩
  · refine ⟨space, hspace, ?_⟩
    have hself : isInScope space space = true := by
      have h := (isInScope_append space []).mpr nofun
      rwa [List.append_nil] at h
    have hnone : ¬ isInScope [] space = true := by
      rw [← List.nil_append space, isInScope_append]
      intro hdot
      cases space with
      | nil => exact hspace rfl
      | cons c space =>
          obtain rfl := hdot c rfl
          exact hplain List.mem_cons_self
    rw [hsplit]
    exact fun h => hnone (h.mpr hself)
  · refine ⟨space ++ ['_'], List.append_ne_nil_of_right_ne_nil space (List.cons_ne_nil '_' []), ?_⟩
    have hnone : ¬ isInScope space (space ++ ['_']) = true := by
      rw [isInScope_append]
      exact fun h => absurd (h '_' rfl) (by decide)
    have houter : isInScope outer (space ++ ['_']) = true := by
      rw [hname, List.append_assoc, isInScope_append]
      rintro c hc
      exact (Option.some.inj hc).symm
    rw [hsplit]
    exact fun h => hnone (h.mp houter)

end Resolution

namespace TagHelper

open Resolution

variable {component content : TagHelper} {parameter : Text}

theorem IsContentOf.isVisible_component (h : content.IsContentOf component parameter) {space : Option Text}
    {imported : List Text} : isVisible space imported component = true ↔
      ¬ IsMadeUp (splitNamespace component.name).2 ∧ CanSee space imported (splitNamespace component.name).1 := by
  rw [isVisible_iff (by rw [h.component_kind]; rfl) h.component_metadata, h.scopeNamespace_component,
    typeIdentifier_of_metadata h.component_metadata]

theorem IsContentOf.isVisible_content (h : content.IsContentOf component parameter) {space : Option Text}
    {imported : List Text} : isVisible space imported content = true ↔
      if '<' ∈ component.name then ¬ IsMadeUp (splitNamespace component.name).2 ∧
        CanSee space imported (splitNamespace (splitNamespace component.name).1).1
      else ¬ IsMadeUp parameter ∧ CanSee space imported (splitNamespace component.name).1 := by
  rw [isVisible_iff (by rw [h.content_kind]; rfl) h.content_metadata, h.scopeNamespace_content, h.isMadeUp,
    h.scopeNamespace_component, typeIdentifier_of_metadata h.component_metadata]
  split
  · exact Iff.rfl
  · exact Iff.rfl

/-- Where the name says that child content follows its component, both are seen from the same documents. -/
theorem IsContentOf.isVisible_iff_of_follows (h : content.IsContentOf component parameter)
    (hfollows : Follows component.name parameter) (space : Option Text) (imported : List Text) :
    isVisible space imported content = true ↔ isVisible space imported component = true := by
  rw [h.isVisible_content, h.isVisible_component]
  unfold Follows at hfollows
  split at hfollows
  · next harguments =>
    rw [if_pos harguments]
    rcases hfollows with hmade | hnone
    · exact iff_of_false (fun hsees => hsees.1 hmade) fun hsees => hsees.1 hmade
    · rw [hnone]
      exact Iff.rfl
  · next hplain =>
    rw [if_neg hplain, hfollows]

/-- Otherwise some root namespace tells them apart. -/
theorem IsContentOf.exists_root_of_not_follows (h : content.IsContentOf component parameter)
    (hother : ¬ Follows component.name parameter) :
    ∃ root ≠ [], ¬ (isVisible (some root) [] content = true ↔ isVisible (some root) [] component = true) := by
  have hsees (root space : Text) : CanSee (some root) [] space ↔ isInScope space root = true := by
    simp [CanSee]
  rw [Follows] at hother
  split at hother
  · next harguments =>
    obtain ⟨hmade, hspace⟩ := not_or.mp hother
    obtain ⟨root, hroot, happart⟩ := exists_tells_apart hspace
    refine ⟨root, hroot, ?_⟩
    rw [h.isVisible_content, h.isVisible_component, if_pos harguments, hsees, hsees, and_iff_right hmade,
      and_iff_right hmade]
    exact happart
  · next hplain =>
    -- The namespace of the component is not empty with a dot behind it, and can be seen from there.
    refine ⟨(splitNamespace component.name).1 ++ ['.'], by simp, ?_⟩
    have hseen : CanSee (some ((splitNamespace component.name).1 ++ ['.'])) [] (splitNamespace component.name).1 := by
      rw [hsees, isInScope_append]
      exact fun c hc => (Option.some.inj hc).symm
    rw [h.isVisible_content, h.isVisible_component, if_neg hplain, and_iff_left hseen, and_iff_left hseen]
    exact fun heq => hother (not_iff_not.mp heq).symm

/-- Child content is in scope exactly where its component is, in every component document with any imports and options,
    if the name of the component allows it: without type arguments if a compiler made up neither or both of the names
    of the component and of the parameter; with type arguments if it made up the component, which is then never in
    scope, or the component stands in no namespace. With any other name there is a document that has one of the two in
    scope and not the other. -/
theorem IsContentOf.mem_scope_iff_component (h : content.IsContentOf component parameter) :
    (Follows component.name parameter →
      ∀ document imports known o, document.fileKind.isComponent = true → component ∈ known → content ∈ known →
        (content ∈ (resolve document imports known o).scope.helpers ↔
          component ∈ (resolve document imports known o).scope.helpers)) ∧
    (¬ Follows component.name parameter → ∃ o : Options,
      ¬ (content ∈ (resolve (.parse .component (.anonymous [])) [] [component, content] o).scope.helpers ↔
          component ∈ (resolve (.parse .component (.anonymous [])) [] [component, content] o).scope.helpers)) := by
  constructor
  · intro hfollows document imports known o hkind hcomponent hcontent
    rw [mem_resolve hkind imports o hcomponent, mem_resolve hkind imports o hcontent]
    exact h.isVisible_iff_of_follows hfollows _ _
  · intro hother
    obtain ⟨root, hroot, happart⟩ := h.exists_root_of_not_follows hother
    refine ⟨{ rootNamespace := some root }, ?_⟩
    rw [mem_resolve_empty hroot List.mem_cons_self, mem_resolve_empty hroot (List.mem_cons_of_mem _ List.mem_cons_self)]
    exact happart

/-- The header of a grid in the namespace of the document, and the row of one with a type argument. -/
theorem IsContentOf.mem_scope_iff_component_grid :
    ({ kind := .childContent, name := "App.Shared.Grid.Header" } : TagHelper) ∈
      (resolve (.parse .component (.anonymous "@namespace App.Shared\n")) []
        [{ kind := .component, name := "App.Shared.Grid" }, { kind := .childContent, name := "App.Shared.Grid.Header" }]
        {}).scope.helpers ∧
    ∃ o : Options,
      ¬ (({ kind := .childContent, name := "App.Grid<X>.Row" } : TagHelper) ∈
          (resolve (.parse .component (.anonymous [])) []
            [{ kind := .component, name := "App.Grid<X>" }, { kind := .childContent, name := "App.Grid<X>.Row" }]
            o).scope.helpers ↔
        ({ kind := .component, name := "App.Grid<X>" } : TagHelper) ∈
          (resolve (.parse .component (.anonymous [])) []
            [{ kind := .component, name := "App.Grid<X>" }, { kind := .childContent, name := "App.Grid<X>.Row" }]
            o).scope.helpers) := by
  have hheader : IsContentOf { kind := .childContent, name := "App.Shared.Grid.Header" }
      { kind := .component, name := "App.Shared.Grid" } "Header" :=
    ⟨rfl, rfl, rfl, rfl, rfl, by decide, by decide⟩
  have hrow : IsContentOf { kind := .childContent, name := "App.Grid<X>.Row" }
      { kind := .component, name := "App.Grid<X>" } "Row" :=
    ⟨rfl, rfl, rfl, rfl, rfl, by decide, by decide⟩
  refine ⟨(hheader.mem_scope_iff_component.1 (by decide) _ [] _ {} rfl List.mem_cons_self
    (List.mem_cons_of_mem _ List.mem_cons_self)).mpr (by decide +kernel), hrow.mem_scope_iff_component.2 (by decide)⟩

/-- A document brings in the namespace of a grid with a type argument, and has the grid in scope without its row. -/
theorem IsContentOf.not_follows_row :
    IsContentOf { kind := .childContent, name := "App.Grid<X>.Row" } { kind := .component, name := "App.Grid<X>" }
        "Row" ∧
      (resolve (.parse .component (.ofFile "@namespace Lib\n@using App\n<p></p>" "Page.razor")) []
        [{ kind := .component, name := "App.Grid<X>" }, { kind := .childContent, name := "App.Grid<X>.Row" }]
        {}).scope.helpers = [{ kind := .component, name := "App.Grid<X>" }] :=
  ⟨⟨rfl, rfl, rfl, rfl, rfl, by decide, by decide⟩, by decide +kernel⟩

end TagHelper

end RazorLang
