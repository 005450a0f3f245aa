import RazorLang.Editor.Report
import RazorLang.Proofs.Engine
import RazorLang.Proofs.Tree.Faults

/-!
# Reports on the document itself

What is wrong with a document is reported together with what is wrong with its imports, and the range of each
report is computed from offsets in the document. So a report belongs to the document (`Report.Belongs`) if it
comes from the document, and it does not if it comes from an import.

Main statement: `Report.ofDocument_belongs_iff` — all reports belong to the document exactly if nothing is wrong
with the imports. `Report.ofDocument_foreign` is a document without a flaw that is reported for one of its import.
-/

namespace RazorLang

variable {e : Engine} {mayGoOn : Engine.Phase → Bool} {r : Request} {c : Compilation} {x : Diagnostic}

namespace Compilation

/-- What is wrong with the document of a compilation itself. -/
def ownFaults (c : Compilation) : List Diagnostic :=
  (ParsedDocument.parse c.request.fileKind c.request.source).faults c.request.fileKind.isComponent

/-- What is wrong with the imports of a compilation. -/
def importFaults (c : Compilation) : List Diagnostic :=
  c.imports.flatMap (ParsedDocument.faults c.request.fileKind.isComponent)

/-- What is wrong with a document and its imports, and nothing else, is reported. -/
theorem mem_diagnostics (h : e.compileWhile mayGoOn r = .ok c) :
    x ∈ c.diagnostics ↔ x ∈ c.ownFaults ∨ x ∈ c.importFaults := by
  obtain ⟨-, csharp, -, hc⟩ := Engine.exists_of_compileWhile h
  have hdocument : c.document.diagnostics =
      (ParsedDocument.parse c.request.fileKind c.request.source).diagnostics := by
    rw [hc]
    rfl
  have hresolution : c.resolution.diagnostics =
      (c.imports ++ [ParsedDocument.parse c.request.fileKind c.request.source]).flatMap
        (ParsedDocument.directiveFaults c.request.fileKind.isComponent) := by
    rw [hc]
    exact ParsedDocument.resolve_diagnostics ..
  have himports : x ∈ c.importFaults ↔ x ∈ c.imports.flatMap (·.diagnostics) ∨
      x ∈ c.imports.flatMap (ParsedDocument.directiveFaults c.request.fileKind.isComponent) := by
    simp only [importFaults, ParsedDocument.faults, List.mem_flatMap, List.mem_append, and_or_left, exists_or]
  -- Neither the order nor repeats matter; what is left is to bring the parts of each source together.
  rw [diagnostics, Diagnostic.mem_dropRepeats, List.mem_mergeSort, List.mem_append, List.mem_append,
    hdocument, hresolution, List.flatMap_append, List.mem_append, List.flatMap_singleton, himports,
    ownFaults, ParsedDocument.faults, List.mem_append]
  exact (or_congr_right or_comm).trans or_or_or_comm

/-- What is wrong with the document is on spans of it. -/
theorem holds_of_mem_ownFaults (h : x ∈ c.ownFaults) : c.request.source.Holds x.span :=
  ParsedDocument.holdsAll_faults c.request.fileKind c.request.source _ x h

/-- What is wrong with an import is on spans of it. -/
theorem exists_of_mem_importFaults (h : e.compileWhile mayGoOn r = .ok c) (hx : x ∈ c.importFaults) :
    ∃ i ∈ r.imports, i.Holds x.span := by
  obtain ⟨-, csharp, -, rfl⟩ := Engine.exists_of_compileWhile h
  obtain ⟨p, hp, hx⟩ := List.mem_flatMap.mp hx
  obtain ⟨i, hi, rfl⟩ := List.mem_map.mp hp
  exact ⟨i, hi, ParsedDocument.holdsAll_faults _ i _ x hx⟩

end Compilation

namespace Report

/-- A report belongs to a document: what is reported is on a span of the document, and the range is that of the
    bytes of the span. -/
def Belongs (c : Compilation) (x : Diagnostic) (report : Report) : Prop :=
  x.span.path = c.request.source.path ∧
    c.buffer.span? report.range = some (x.span.start.offset, x.span.stop)

/-- A span of the document has a range there. -/
theorem belongs_of_holds (h : c.request.source.Holds x.span) :
    Belongs c x (ofDiagnostic c.buffer x) := by
  obtain ⟨range, hrange, hspan⟩ := h.start.exists_range? h.stop (Nat.le_add_right _ _)
  refine ⟨h.path, ?_⟩
  show c.buffer.span? ((c.buffer.range? x.span.start.offset x.span.stop).getD .undefined) = _
  rw [show c.buffer.range? x.span.start.offset x.span.stop = some range from hrange]
  exact hspan

/-- Each diagnostic has one report. -/
theorem forall₂_ofDocument {R : Diagnostic → Report → Prop} :
    List.Forall₂ R c.diagnostics (ofDocument (.compiled c) c.buffer) ↔
      ∀ x ∈ c.diagnostics, R x (ofDiagnostic c.buffer x) :=
  List.forall₂_map_right_iff.trans List.forall₂_same

/-- Where the imports have other paths than the document, the diagnostics with the path of the document are its
    own, and their reports belong to it. So all reports do exactly if nothing is wrong with the imports. -/
theorem ofDocument_belongs_iff (h : e.compileWhile mayGoOn r = .ok c)
    (hpaths : ∀ i ∈ r.imports, i.path ≠ r.source.path) :
    List.Forall₂ (fun x report => (x.span.path = c.request.source.path ↔ x ∈ c.ownFaults) ∧
        (x ∈ c.ownFaults → Belongs c x report)) c.diagnostics (ofDocument (.compiled c) c.buffer) ∧
      (List.Forall₂ (Belongs c) c.diagnostics (ofDocument (.compiled c) c.buffer) ↔
        c.importFaults = []) := by
  obtain ⟨-, -, hrequest, -⟩ := Engine.compileWhile_eq_ok h
  have hown (x : Diagnostic) (hx : x ∈ c.ownFaults) : Belongs c x (ofDiagnostic c.buffer x) :=
    belongs_of_holds (Compilation.holds_of_mem_ownFaults hx)
  have hother (x : Diagnostic) (hx : x ∈ c.importFaults) : x.span.path ≠ c.request.source.path := by
    obtain ⟨i, hi, hspan⟩ := Compilation.exists_of_mem_importFaults h hx
    rw [hspan.path, hrequest]
    exact hpaths i hi
  have hcases (x : Diagnostic) (hx : x ∈ c.diagnostics) : x ∈ c.ownFaults ∨ x ∈ c.importFaults :=
    (Compilation.mem_diagnostics h).mp hx
  rw [forall₂_ofDocument, forall₂_ofDocument, List.eq_nil_iff_forall_not_mem]
  refine ⟨fun x hx => ⟨⟨fun hpath => ?_, fun hx => (hown x hx).1⟩, hown x⟩, ?_, ?_⟩
  · exact (hcases x hx).resolve_right fun himport => hother x himport hpath
  · intro hall x hx
    exact hother x hx (hall x ((Compilation.mem_diagnostics h).mpr (Or.inr hx))).1
  · intro hnone x hx
    exact hown x ((hcases x hx).resolve_right (hnone x))

/-- An element that the document does not close, with an import that nothing is wrong with. -/
theorem ofDocument_belongs_iff_unclosed :
    ∃ c, Engine.bare.compileWhile (fun _ => true) ⟨.ofFile "<b>" "Index.cshtml", .legacy,
        [.ofFile "@using A" "_ViewImports.cshtml"]⟩ = .ok c ∧
      c.diagnostics.length = 1 ∧ c.importFaults = [] ∧
      List.Forall₂ (Belongs c) c.diagnostics (ofDocument (.compiled c) c.buffer) := by
  have hfacts : (Engine.bare.compileWhile (fun _ => true) ⟨.ofFile "<b>" "Index.cshtml", .legacy,
      [.ofFile "@using A" "_ViewImports.cshtml"]⟩).toOption.map
        (fun c => (c.diagnostics.length, c.importFaults)) = some (1, []) := by
    decide +kernel
  obtain ⟨c, hc, hfacts⟩ := Engine.exists_ok_of_map_toOption hfacts
  obtain ⟨hlength, hnone⟩ := Prod.mk.inj hfacts
  exact ⟨c, hc, hlength, hnone, ((ofDocument_belongs_iff hc (by decide)).2).mpr hnone⟩

/-- What is wrong with an import that does not close an element. -/
def unclosedInImport : Diagnostic := ⟨.unclosedElement "b", ⟨some "_ViewImports.cshtml", .start, 3⟩⟩

/-- An element that an import does not close is reported on the `<p>` of a document without a flaw. -/
theorem ofDocument_foreign :
    ∃ c, Engine.bare.compileWhile (fun _ => true) ⟨.ofFile "<p>Hi</p>" "Index.cshtml", .legacy,
        [.ofFile "<b>" "_ViewImports.cshtml"]⟩ = .ok c ∧
      c.ownFaults = [] ∧ c.diagnostics = [unclosedInImport] ∧
      (ofDocument (.compiled c) c.buffer).map (·.range) = [⟨⟨0, 0⟩, ⟨0, 3⟩⟩] ∧
      ¬ List.Forall₂ (Belongs c) c.diagnostics (ofDocument (.compiled c) c.buffer) := by
  have hfacts : (Engine.bare.compileWhile (fun _ => true) ⟨.ofFile "<p>Hi</p>" "Index.cshtml", .legacy,
      [.ofFile "<b>" "_ViewImports.cshtml"]⟩).toOption.map (fun c =>
        (c.ownFaults, c.diagnostics, (ofDocument (.compiled c) c.buffer).map (·.range),
          decide (unclosedInImport.span.path = c.request.source.path))) =
      some ([], [unclosedInImport], [⟨⟨0, 0⟩, ⟨0, 3⟩⟩], false) := by
    decide +kernel
  obtain ⟨c, hc, hfacts⟩ := Engine.exists_ok_of_map_toOption hfacts
  obtain ⟨hown, hfacts⟩ := Prod.mk.inj hfacts
  obtain ⟨hdiagnostics, hfacts⟩ := Prod.mk.inj hfacts
  obtain ⟨hranges, hpath⟩ := Prod.mk.inj hfacts
  refine ⟨c, hc, hown, hdiagnostics, hranges, fun hall => of_decide_eq_false hpath ?_⟩
  exact (forall₂_ofDocument.mp hall unclosedInImport (hdiagnostics ▸ List.mem_singleton_self _)).1

end Report

end RazorLang
