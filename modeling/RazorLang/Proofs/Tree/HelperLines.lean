import Mathlib.Data.List.Forall2
import RazorLang.Grammar.Directive

/-!
# Lines for tag helpers

A directive that adds or removes tag helpers, or sets their prefix, takes the rest of its line as a text. The text is
the value of the directive (`Tree.line?`), and what it means is a label on the code of the line (`Tree.helperLabel?`).
Both are found by going through all nodes; where trees are `Labeled`, the labels are those that the lines give,
one for each line and in their order.
-/

namespace RazorLang

/-- The labels that directives for tag helpers leave on their code. -/
def Label.isForHelpers : Label → Bool
  | addTagHelper _ | removeTagHelper _ | tagPrefix .. => true
  | _ => false

theorem Grammar.isForHelpers_tagHelperLabel (d : Directive) (text : Text) (span : Span) :
    (tagHelperLabel d text span).isForHelpers = true := by
  cases d <;> rfl

theorem Grammar.tagHelperLabel_plain (d : Directive) (text : Text) (span : Span) (use : DirectiveUse) :
    some (tagHelperLabel d text span) ≠ some (.directive use) := by
  cases d <;> exact nofun

/-- A directive that takes the rest of its line, with the text there. -/
structure HelperLine where
  directive : Directive
  shape : directive.shape = .restOfLine
  text : Text
  deriving DecidableEq, Repr

/-- The line of a directive for tag helpers; without a value its text is empty. -/
def DirectiveUse.line? (use : DirectiveUse) : Option HelperLine :=
  if h : use.directive.shape = .restOfLine then some ⟨use.directive, h, use.firstText?.getD []⟩ else none

/-- There are three directives for tag helpers. -/
theorem HelperLine.directive_cases (line : HelperLine) : line.directive = .addTagHelper ∨
    line.directive = .removeTagHelper ∨ line.directive = .tagHelperPrefix := by
  obtain ⟨d, h, text⟩ := line
  cases d with
  | addTagHelper => exact .inl rfl
  | removeTagHelper => exact .inr (.inl rfl)
  | tagHelperPrefix => exact .inr (.inr rfl)
  | _ => exact nomatch h

/-- A label that a line gives, wherever it stands. -/
def HelperLine.Gives (line : HelperLine) (label : Label) : Prop :=
  ∃ span, label = Grammar.tagHelperLabel line.directive line.text span

namespace Tree

/-- The line of the directive for tag helpers that a node stands for. -/
def line? (t : Tree) : Option HelperLine := t.directive?.bind DirectiveUse.line?

/-- The label that a directive for tag helpers left on a node of code. -/
def helperLabel? (t : Tree) : Option Label :=
  if t.kind? = some .statementCode then t.label?.filter Label.isForHelpers else none

/-- The lines for tag helpers in some trees, in the order of the source. -/
def lines (trees : List Tree) : List HelperLine := (nodesAll trees).filterMap line?

/-- The labels of the lines for tag helpers in some trees, in the order of the source. -/
def helperLabels (trees : List Tree) : List Label := (nodesAll trees).filterMap helperLabel?

/-- The labels in some trees are those that the lines in them give. -/
def Labeled (trees : List Tree) : Prop := List.Forall₂ HelperLine.Gives (lines trees) (helperLabels trees)

variable {t : Tree} {trees more : List Tree} {kind : NodeKind} {span : Span} {label : Option Label}

@[simp] theorem nodes_token (t : Token) : (token t).nodes = [] := by rw [nodes]

theorem nodesAll_append (trees more : List Tree) :
    nodesAll (trees ++ more) = nodesAll trees ++ nodesAll more := by
  induction trees with
  | nil => rfl
  | cons t trees ih => rw [List.cons_append, nodesAll, ih, nodesAll, List.append_assoc]

theorem nodesAll_tokens (ts : List Token) : nodesAll (ts.map token) = [] := by
  induction ts with
  | nil => rw [List.map_nil, nodesAll]
  | cons t ts ih => rw [List.map_cons, nodesAll, nodes_token, ih, List.nil_append]

theorem nodesAll_node (kind : NodeKind) (span : Span) (label : Option Label) (trees : List Tree) :
    nodesAll [node kind span label trees] = node kind span label trees :: nodesAll trees := by
  rw [nodesAll, nodes, nodesAll, List.append_nil]

/-! ## Lines and labels of trees side by side -/

theorem lines_append (trees more : List Tree) : lines (trees ++ more) = lines trees ++ lines more := by
  rw [lines, nodesAll_append, List.filterMap_append, lines, lines]

theorem helperLabels_append (trees more : List Tree) :
    helperLabels (trees ++ more) = helperLabels trees ++ helperLabels more := by
  rw [helperLabels, nodesAll_append, List.filterMap_append, helperLabels, helperLabels]

theorem Labeled.append (h : Labeled trees) (h' : Labeled more) : Labeled (trees ++ more) := by
  unfold Labeled
  rw [lines_append, helperLabels_append]
  exact List.rel_append h h'

theorem labeled_of_forall (h : ∀ t ∈ trees, Labeled [t]) : Labeled trees := by
  induction trees with
  | nil => exact .nil
  | cons t trees ih =>
      exact (h t (List.mem_cons_self ..)).append (ih fun u hu => h u (List.mem_cons_of_mem t hu))

theorem labeled_token (t : Token) : Labeled [token t] := by
  rw [Labeled, lines, helperLabels, nodesAll, nodes_token, nodesAll]
  exact .nil

/-! ## Lines and labels of a node -/

/-- A node that is no line and has no label of one has the lines and labels of the trees under it. -/
theorem lines_node (hline : (node kind span label trees).line? = none)
    (hlabel : (node kind span label trees).helperLabel? = none) :
    lines [node kind span label trees] = lines trees ∧
      helperLabels [node kind span label trees] = helperLabels trees := by
  rw [lines, helperLabels, nodesAll_node, List.filterMap_cons_none hline, List.filterMap_cons_none hlabel]
  exact ⟨rfl, rfl⟩

theorem helperLabel?_none (kind : NodeKind) (span : Span) (trees : List Tree) :
    (node kind span none trees).helperLabel? = none := by
  unfold helperLabel?
  split
  · rfl
  · rfl

/-- A node without a label has the lines and labels of the trees under it. -/
theorem lines_unlabeled (kind : NodeKind) (span : Span) (trees : List Tree) :
    lines [node kind span none trees] = lines trees ∧
      helperLabels [node kind span none trees] = helperLabels trees :=
  lines_node rfl (helperLabel?_none kind span trees)

theorem Labeled.spanning (h : Labeled trees) (kind : NodeKind) (place : Span) :
    Labeled [Tree.spanning kind trees place] := by
  obtain ⟨hlines, hlabels⟩ := lines_unlabeled kind (spanOf trees place) trees
  unfold Labeled Tree.spanning
  rw [hlines, hlabels]
  exact h

theorem lines_overTokens (kind : NodeKind) (ts : List Token) (place : Span) :
    lines [overTokens kind ts place] = [] ∧ helperLabels [overTokens kind ts place] = [] := by
  obtain ⟨hlines, hlabels⟩ := lines_unlabeled kind (spanOf (ts.map token) place) (ts.map token)
  rw [overTokens, Tree.spanning, hlines, hlabels, lines, helperLabels, nodesAll_tokens]
  exact ⟨rfl, rfl⟩

theorem labeled_overTokens (kind : NodeKind) (ts : List Token) (place : Span) :
    Labeled [overTokens kind ts place] := by
  obtain ⟨hlines, hlabels⟩ := lines_overTokens kind ts place
  rw [Labeled, hlines, hlabels]
  exact .nil

/-- The line of a directive comes before those in it. -/
theorem lines_directive (use : DirectiveUse) (trees : List Tree) (place : Span) :
    lines [spanning .directive trees place (some (.directive use))] = use.line?.toList ++ lines trees ∧
      helperLabels [spanning .directive trees place (some (.directive use))] = helperLabels trees := by
  have hline : (node .directive (spanOf trees place) (some (.directive use)) trees).line? = use.line? := rfl
  have hlabel : (node .directive (spanOf trees place) (some (.directive use)) trees).helperLabel? = none := rfl
  rw [spanning, lines, helperLabels, nodesAll_node, List.filterMap_cons_none hlabel]
  refine ⟨?_, rfl⟩
  cases huse : use.line? with
  | none => rw [List.filterMap_cons_none (hline.trans huse), Option.toList_none, List.nil_append, lines]
  | some line =>
      rw [List.filterMap_cons_some (hline.trans huse), Option.toList_some, List.singleton_append, lines]

/-- The code of a line: a node over tokens, with a label that the line gives. -/
def IsCodeOf (line : HelperLine) (t : Tree) : Prop :=
  ∃ (ts : List Token) (place : Span) (label : Label), line.Gives label ∧
    t = spanning .statementCode (ts.map token) place (some label)

/-- The code of a line is not the line itself, but has its label. -/
theorem IsCodeOf.lines {line : HelperLine} (h : IsCodeOf line t) :
    Tree.lines [t] = [] ∧ ∃ label, line.Gives label ∧ helperLabels [t] = [label] := by
  obtain ⟨ts, place, label, ⟨span, hlabel⟩, ht⟩ := h
  have hline : t.line? = none := by
    rw [ht, hlabel]
    obtain ⟨d, h, text⟩ := line
    cases d <;> rfl
  have hhelper : t.helperLabel? = some label := by
    rw [ht, hlabel]
    exact Option.filter_some_pos (Grammar.isForHelpers_tagHelperLabel ..)
  rw [ht, spanning] at hline hhelper ⊢
  rw [Tree.lines, helperLabels, nodesAll_node, List.filterMap_cons_none hline,
    List.filterMap_cons_some hhelper, nodesAll_tokens]
  exact ⟨rfl, label, ⟨span, hlabel⟩, rfl⟩

/-- Code of an import is no line and has no label of one. -/
theorem labeled_import (ts : List Token) (place : Span) (space : Text) (isStatic : Bool)
    (shortName : Option Text) :
    Labeled [spanning .statementCode (ts.map token) place (some (.addImport space isStatic shortName))] := by
  have hnode {span : Span} : lines [node .statementCode span (some (.addImport space isStatic shortName))
      (ts.map token)] = lines (ts.map token) ∧ helperLabels [node .statementCode span
        (some (.addImport space isStatic shortName)) (ts.map token)] = helperLabels (ts.map token) :=
    lines_node rfl rfl
  rw [Labeled, Tree.spanning, hnode.1, hnode.2, lines, helperLabels, nodesAll_tokens]
  exact .nil

end Tree

end RazorLang
