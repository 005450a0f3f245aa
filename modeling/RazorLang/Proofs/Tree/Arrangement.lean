import Mathlib.Data.List.Sort
import Mathlib.Order.Compare
import RazorLang.Proofs.Engine
import RazorLang.Proofs.Sorting
import RazorLang.Proofs.Tree.Faults
import RazorLang.Proofs.Workspace.PathMap

/-!
# The order of reports

The diagnostics of a document are its reports, sorted, with each run of equal ones reduced to one. Main
statement: `Engine.isArrangement_diagnostics` — the list is sorted and holds what was reported, but it is free
of repeats only as far as no other report of the same place comes between two that are equal. The sort is
stable, so it keeps what is between them there, and the removal of repeats looks at neighbours alone
(`Engine.not_nodup_diagnostics_nested`). The route: spans and identifiers are in a linear order, stability
moves an alternation of two reports from one list to the other, and a list of no two equal neighbours that has
a repeat has such an alternation.
-/

namespace RazorLang

open scoped List

/-! ## The orders of texts and spans -/

/-- What a part of a value is compared by compares the values. -/
theorem transCmp_on {α β : Type} {cmp : β → β → Ordering} [Std.TransCmp cmp] (f : α → β) :
    Std.TransCmp fun a b => cmp (f a) (f b) where
  eq_swap := Std.OrientedCmp.eq_swap
  isLE_trans := Std.TransCmp.isLE_trans

namespace Text

/-- Texts are compared as lists of the numbers of their characters. -/
theorem compare_eq_compareLex : compare = List.compareLex (compareOn Char.toNat) := by
  funext s t
  induction s generalizing t with
  | nil => cases t <;> rfl
  | cons c s ih =>
      cases t with
      | nil => rfl
      | cons d t =>
          rw [compare, List.compareLex_cons_cons, ih]
          rfl

instance : Std.TransCmp compare := by
  rw [compare_eq_compareLex]
  infer_instance

instance : Std.LawfulEqCmp compare where
  compare_self := Text.compare_self _
  eq_of_compare := Text.eq_of_compare

end Text

namespace Span

/-- Paths are compared as optional texts. -/
theorem comparePath_eq_compare :
    comparePath = fun p q => @Ord.compare (Option Text) (@instOrdOption _ ⟨Text.compare⟩) p q := by
  funext p q
  cases p <;> cases q <;> rfl

instance : Std.TransCmp comparePath := by
  rw [comparePath_eq_compare]
  let _ : Ord Text := ⟨Text.compare⟩
  have : Std.TransOrd Text := inferInstanceAs (Std.TransCmp Text.compare)
  exact inferInstanceAs (Std.TransOrd (Option Text))

theorem eq_of_comparePath {p q : Option Text} (h : comparePath p q = .eq) : p = q := by
  cases p with
  | none =>
      cases q with
      | none => rfl
      | some q => exact nomatch h
  | some p =>
      cases q with
      | none => exact nomatch h
      | some q => exact congrArg some (Text.eq_of_compare h)

/-- Spans are compared by one part after the other. -/
theorem compare_eq_compareLex : compare =
    compareLex (compareOn (·.start.offset)) (compareLex (compareOn (·.length))
      (compareLex (compareOn (·.start.line)) (compareLex (compareOn (·.start.column))
        fun s t => comparePath s.path t.path))) := rfl

instance : Std.TransCmp compare := by
  have : Std.TransCmp fun s t : Span => comparePath s.path t.path := transCmp_on Span.path
  rw [compare_eq_compareLex]
  infer_instance

theorem eq_of_compare {s t : Span} (h : compare s t = .eq) : s = t := by
  obtain ⟨hoffset, h⟩ := Ordering.then_eq_eq.mp h
  obtain ⟨hlength, h⟩ := Ordering.then_eq_eq.mp h
  obtain ⟨hline, h⟩ := Ordering.then_eq_eq.mp h
  obtain ⟨hcolumn, hpath⟩ := Ordering.then_eq_eq.mp h
  rw [Nat.compare_eq_eq] at hoffset hlength hline hcolumn
  obtain ⟨p, ⟨o, l, c⟩, n⟩ := s
  obtain ⟨q, ⟨o', l', c'⟩, n'⟩ := t
  obtain rfl : o = o' := hoffset
  obtain rfl : n = n' := hlength
  obtain rfl : l = l' := hline
  obtain rfl : c = c' := hcolumn
  obtain rfl : p = q := eq_of_comparePath hpath
  rfl

end Span

namespace Diagnostic

/-! ## Runs of equal reports -/

variable {x y : Diagnostic} {reports part : List Diagnostic}

theorem dropRepeats_sublist (reports : List Diagnostic) : dropRepeats reports <+ reports := by
  fun_induction dropRepeats reports with
  | case1 => exact .slnil
  | case2 d => exact List.Sublist.refl [d]
  | case3 e rest ih => exact ih.cons e
  | case4 d e rest hne ih => exact ih.cons_cons d

/-- What is first stays first. -/
theorem head?_dropRepeats (reports : List Diagnostic) :
    (dropRepeats reports).head? = reports.head? := by
  fun_induction dropRepeats reports with
  | case1 => rfl
  | case2 => rfl
  | case3 e rest ih => exact ih
  | case4 => rfl

theorem isChain_dropRepeats (reports : List Diagnostic) :
    (dropRepeats reports).IsChain (· ≠ ·) := by
  fun_induction dropRepeats reports with
  | case1 => exact .nil
  | case2 d => exact .singleton d
  | case3 e rest ih => exact ih
  | case4 d e rest hne ih =>
      refine ih.cons fun f hf => ?_
      rw [head?_dropRepeats] at hf
      rwa [← Option.some.inj hf]

/-- A part without equal neighbours is a part of what is left. -/
theorem sublist_dropRepeats (h : part <+ reports) (hchain : part.IsChain (· ≠ ·)) :
    part <+ dropRepeats reports := by
  fun_induction dropRepeats reports generalizing part with
  | case1 => exact h
  | case2 => exact h
  | case3 e rest ih =>
      refine ih ?_ hchain
      rcases List.sublist_cons_iff.mp h with h | ⟨tail, rfl, htail⟩
      · exact h
      · -- the part can begin with the first of the two, but does not go on with the second
        refine List.Sublist.cons_cons e ?_
        rcases List.sublist_cons_iff.mp htail with htail | ⟨tail, rfl, -⟩
        · exact htail
        · exact absurd rfl (List.isChain_cons_cons.mp hchain).1
  | case4 d e rest hne ih =>
      rcases List.sublist_cons_iff.mp h with h | ⟨tail, rfl, htail⟩
      · exact (ih h hchain).cons d
      · exact (ih htail hchain.tail).cons_cons d

/-- Between two equal reports that are not neighbours there is another one. -/
theorem exists_between (hchain : reports.IsChain (· ≠ ·)) (h : [x, x] <+ reports) :
    ∃ y, x ≠ y ∧ [x, y, x] <+ reports := by
  induction reports with
  | nil => exact nomatch h
  | cons d rest ih =>
      rcases List.sublist_cons_iff.mp h with h | ⟨tail, heq, htail⟩
      · obtain ⟨y, hne, hy⟩ := ih hchain.tail h
        exact ⟨y, hne, hy.cons d⟩
      · obtain ⟨rfl, rfl⟩ := List.cons.inj heq
        cases rest with
        | nil => exact nomatch htail
        | cons e rest =>
            have hne := (List.isChain_cons_cons.mp hchain).1
            have hx : x ∈ rest :=
              (List.mem_cons.mp (List.singleton_sublist.mp htail)).resolve_left hne
            exact ⟨e, hne, ((List.singleton_sublist.mpr hx).cons_cons e).cons_cons x⟩

/-! ## Sorted reports -/

variable {cmp : Diagnostic → Diagnostic → Ordering} [Std.TransCmp cmp]

theorem isLE_total (x y : Diagnostic) : ((cmp x y).isLE || (cmp y x).isLE) = true := by
  have hswap : cmp x y = (cmp y x).swap := Std.OrientedCmp.eq_swap
  rw [hswap]
  cases cmp y x <;> rfl

theorem isLE_trans (x y z : Diagnostic) (hxy : (cmp x y).isLE = true) (hyz : (cmp y z).isLE = true) :
    (cmp x z).isLE = true :=
  Std.TransCmp.isLE_trans hxy hyz

/-- The sort is stable: reports of one place keep their order among each other. -/
theorem filter_mergeSort (x : Diagnostic) (reports : List Diagnostic) :
    (reports.mergeSort fun x y => (cmp x y).isLE).filter (cmp x · == .eq) =
      reports.filter (cmp x · == .eq) := by
  refine RazorLang.filter_mergeSort isLE_trans isLE_total (fun y z hy hz => ?_) reports
  rw [Std.TransCmp.congr_left (Std.OrientedCmp.eq_symm (eq_of_beq hy)), eq_of_beq hz]
  rfl

/-- Where another report of the same place comes between two equal ones, the two stay apart. -/
theorem sublist_dropRepeats_mergeSort (hxy : cmp x y = .eq) (hne : x ≠ y)
    (h : [x, y, x] <+ reports) :
    [x, y, x] <+ dropRepeats (reports.mergeSort fun x y => (cmp x y).isLE) := by
  have hyx : cmp y x = .eq := Std.OrientedCmp.eq_symm hxy
  have hsame : [x, y, x].Pairwise fun y z => (cmp y z).isLE = true := by
    simp [hxy, hyx, Std.ReflCmp.compare_self]
  exact sublist_dropRepeats (List.sublist_mergeSort isLE_trans isLE_total hsame h)
    (by simp [hne, Ne.symm hne])

/-- Some reports in an order, each of them there, and none of them twice unless a report of the same place,
    as `key` tells it, was made between two equal ones. -/
structure IsArrangement {κ : Type} (key : Diagnostic → κ) (le : Diagnostic → Diagnostic → Bool)
    (reports arranged : List Diagnostic) : Prop where
  sorted : arranged.Pairwise fun x y => le x y = true
  mem_iff : ∀ x, x ∈ arranged ↔ x ∈ reports
  nodup_iff : arranged.Nodup ↔ ∀ x y, key x = key y → [x, y, x] <+ reports → x = y

/-- Sorted reports without repeats side by side are an arrangement of the reports. -/
theorem isArrangement_dropRepeats {κ : Type} {key : Diagnostic → κ}
    (hkey : ∀ x y, cmp x y = .eq ↔ key x = key y) (reports : List Diagnostic) :
    IsArrangement key (fun x y => (cmp x y).isLE) reports
      (dropRepeats (reports.mergeSort fun x y => (cmp x y).isLE)) where
  sorted := (List.pairwise_mergeSort isLE_trans isLE_total reports).sublist (dropRepeats_sublist _)
  mem_iff x := by rw [mem_dropRepeats, List.mem_mergeSort]
  nodup_iff := by
    constructor
    · intro hnodup x y hxy halternate
      by_contra hne
      have hleft := sublist_dropRepeats_mergeSort ((hkey x y).mpr hxy) hne halternate
      refine List.nodup_iff_sublist.mp hnodup x (List.Sublist.trans ?_ hleft)
      exact ((List.Sublist.refl [x]).cons y).cons_cons x
    · intro halternate
      refine List.nodup_iff_sublist.mpr fun x htwice => ?_
      obtain ⟨y, hne, hy⟩ := exists_between (isChain_dropRepeats _) htwice
      have hsorted := hy.trans (dropRepeats_sublist _)
      obtain ⟨hle, hge⟩ : (cmp x y).isLE = true ∧ (cmp y x).isLE = true := by
        have := (List.pairwise_mergeSort isLE_trans isLE_total reports).sublist hsorted
        simp only [List.pairwise_cons, List.mem_cons] at this
        exact ⟨this.1 y (Or.inl rfl), this.2.1 x (Or.inl rfl)⟩
      have hxy : cmp x y = .eq := Std.OrientedCmp.isLE_antisymm hle hge
      -- all three are of the place of `x`, where the sort leaves the reports as they are
      have hplace : [x, y, x] <+ reports.filter (cmp x · == .eq) := by
        have := hsorted.filter (cmp x · == .eq)
        rw [filter_mergeSort] at this
        simpa [hxy, Std.ReflCmp.compare_self] using this
      exact hne (halternate x y ((hkey x y).mp hxy) (hplace.trans List.filter_sublist))

/-- Compares diagnostics by where they are. -/
def bySpan (x y : Diagnostic) : Ordering := Span.compare x.span y.span

/-- Compares diagnostics by where they are, and then by rule. -/
def bySpanAndId (x y : Diagnostic) : Ordering := (bySpan x y).then (Text.compare x.id y.id)

instance : Std.TransCmp bySpan := transCmp_on Diagnostic.span

instance : Std.TransCmp bySpanAndId :=
  have : Std.TransCmp fun x y : Diagnostic => Text.compare x.id y.id := transCmp_on Diagnostic.id
  inferInstanceAs (Std.TransCmp (compareLex bySpan fun x y => Text.compare x.id y.id))

theorem bySpan_eq_iff (x y : Diagnostic) : bySpan x y = .eq ↔ x.span = y.span :=
  ⟨Span.eq_of_compare, fun h => by rw [bySpan, h]; exact Std.ReflCmp.compare_self⟩

theorem bySpanAndId_eq_iff (x y : Diagnostic) :
    bySpanAndId x y = .eq ↔ (x.span, x.id) = (y.span, y.id) := by
  rw [bySpanAndId, Ordering.then_eq_eq, bySpan_eq_iff, Std.LawfulEqCmp.compare_eq_iff_eq,
    Prod.mk.injEq]

end Diagnostic

/-! ## Documents -/

namespace ParsedDocument

/-- What is wrong with a source, as it is found: what the grammar reports, and then what is wrong with the
    tokens of the tree. -/
def reports (fileKind : FileKind) (d : Source) : List Diagnostic :=
  (Grammar.markup fileKind .document (readerOf d)).2.reported.reverse ++
    (parse fileKind d).root.tokens.flatMap Token.diagnostics

/-- The diagnostics of a parsed source are arranged by span. -/
theorem isArrangement_parse (fileKind : FileKind) (d : Source) :
    Diagnostic.IsArrangement Diagnostic.span Diagnostic.spanLe (reports fileKind d)
      (parse fileKind d).diagnostics :=
  Diagnostic.isArrangement_dropRepeats Diagnostic.bySpan_eq_iff (reports fileKind d)

end ParsedDocument

/-- What is wrong with a compiled document, as it is collected: its own diagnostics, those of its imports and
    those of the directives for tag helpers. -/
def Compilation.reports (c : Compilation) : List Diagnostic :=
  c.document.diagnostics ++ c.imports.flatMap (·.diagnostics) ++ c.resolution.diagnostics

/-- The diagnostics of a compilation are arranged by span and then by rule. -/
theorem Compilation.isArrangement_reports (c : Compilation) :
    Diagnostic.IsArrangement (fun x => (x.span, x.id)) Diagnostic.le c.reports c.diagnostics :=
  Diagnostic.isArrangement_dropRepeats Diagnostic.bySpanAndId_eq_iff c.reports

namespace Engine

/-- The diagnostics of every parsed source are sorted by span, those of every compilation by span and then by
    rule. Both hold what was reported, and nothing twice that was not reported again behind another report of
    the same place: of the same span, and for a compilation also of the same rule. -/
theorem isArrangement_diagnostics (fileKind : FileKind) (d : Source) (e : Engine)
    (mayGoOn : Phase → Bool) (r : Request) :
    Diagnostic.IsArrangement Diagnostic.span Diagnostic.spanLe
      (ParsedDocument.reports fileKind d) (ParsedDocument.parse fileKind d).diagnostics ∧
    ∀ c, e.compileWhile mayGoOn r = .ok c →
      c.document.diagnostics = (ParsedDocument.parse r.fileKind r.source).diagnostics ∧
      c.imports = r.imports.map (ParsedDocument.parse (FileKind.ofImports r.fileKind)) ∧
      Diagnostic.IsArrangement (fun x => (x.span, x.id)) Diagnostic.le c.reports c.diagnostics := by
  refine ⟨ParsedDocument.isArrangement_parse fileKind d, fun c h => ?_⟩
  obtain ⟨-, csharp, -, rfl⟩ := exists_of_compileWhile h
  exact ⟨rfl, rfl, Compilation.isArrangement_reports _⟩

/-- A block that is not closed, with an import in which an element is not closed. -/
def unclosedRequest : Request := ⟨.anonymous "@\x7b", .legacy, [.anonymous "<b>"]⟩

/-- What is wrong with a document and with its import is two reports, so neither is there twice. -/
theorem isArrangement_diagnostics_unclosed :
    ∃ c, bare.compileWhile (fun _ => true) unclosedRequest = .ok c ∧
      c.reports.map Diagnostic.id = ["RZ1003", "RZ1006"] ∧
      Diagnostic.IsArrangement (fun x => (x.span, x.id)) Diagnostic.le c.reports c.diagnostics ∧
      c.diagnostics.Nodup := by
  obtain ⟨c, hc, hids⟩ := exists_ok_of_map_toOption
    (x := bare.compileWhile (fun _ => true) unclosedRequest)
    (f := fun c => c.reports.map Diagnostic.id) (b := ["RZ1003", "RZ1006"]) (by decide +kernel)
  obtain ⟨-, -, harrangement⟩ :=
    (isArrangement_diagnostics .legacy unclosedRequest.source _ _ _).2 c hc
  refine ⟨c, hc, hids, harrangement, harrangement.nodup_iff.mpr fun x y _ halternate => ?_⟩
  have hlength : c.reports.length = 2 := by simpa using congrArg List.length hids
  have hle : 3 ≤ c.reports.length := halternate.length_le
  omega

/-- A section in a block with another block in the section, none of which is closed. -/
def nestedSource : Source := .anonymous "@\x7b<p>@section S \x7b@\x7b"

/-- Where that source ends. -/
def nestedEnd : Span := ⟨none, ⟨19, 0, 19⟩, 0⟩

/-- Of the blocks that are not closed, the inner one is reported, then the section, then the outer block in the
    same words as the inner one; the report of the section keeps the two apart. -/
theorem not_nodup_diagnostics_nested :
    ¬ (ParsedDocument.parse .legacy nestedSource).diagnostics.Nodup ∧
    ∃ c, bare.compileWhile (fun _ => true) ⟨nestedSource, .legacy, []⟩ = .ok c ∧
      ¬ c.document.diagnostics.Nodup ∧ ¬ c.diagnostics.Nodup := by
  -- the outer and the inner block, and the section between them
  let block : Diagnostic := ⟨.missingClose "code" '\x7b' '\x7d', nestedEnd⟩
  let between : Diagnostic := ⟨.missingClose "section" '\x7b' '\x7d', nestedEnd⟩
  have hne : block ≠ between := by decide
  have hreports : [block, between, block] <+ ParsedDocument.reports .legacy nestedSource := by
    decide +kernel
  have hplace : Diagnostic.bySpan block between = .eq := (Diagnostic.bySpan_eq_iff _ _).mpr rfl
  have hparse := Diagnostic.sublist_dropRepeats_mergeSort hplace hne hreports
  have hnot : ¬ (ParsedDocument.parse .legacy nestedSource).diagnostics.Nodup := fun hnodup =>
    hne ((ParsedDocument.isArrangement_parse _ _).nodup_iff.mp hnodup _ _ rfl hreports)
  obtain ⟨c, hc⟩ : ∃ c, bare.compileWhile (fun _ => true) ⟨nestedSource, .legacy, []⟩ = .ok c :=
    ⟨_, rfl⟩
  obtain ⟨-, -, -, hdocument, -⟩ := compileWhile_eq_ok hc
  have hdiagnostics : c.document.diagnostics =
      (ParsedDocument.parse .legacy nestedSource).diagnostics := by
    rw [hdocument]
    rfl
  refine ⟨hnot, c, hc, hdiagnostics ▸ hnot, fun hnodup => ?_⟩
  have hall : [block, between, block] <+ c.reports := by
    rw [Compilation.reports, hdiagnostics, List.append_assoc]
    exact hparse.trans (List.sublist_append_left _ _)
  exact hne (c.isArrangement_reports.nodup_iff.mp hnodup _ _ rfl hall)

end Engine

end RazorLang
