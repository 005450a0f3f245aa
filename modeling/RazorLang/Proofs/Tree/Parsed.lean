import RazorLang.Proofs.Token.Run
import RazorLang.Proofs.Tree.HelperLines

/-!
# The trees that the grammar builds

`Tree.Shaped` lists how the grammar puts nodes together: pieces of code and other leaves are nodes over
tokens, an expression holds exactly one piece of code, and the values of a directive are read from its own
tokens. Everything that generation relies on about the shape of a tree is read off this list.

`Tree.Parsed` says besides that the labels on code are those of the directives that it belongs to. What the
rules of the grammar are shown to build are such trees, each by one of the lemmas on `Parsed`.
-/

namespace RazorLang

/-! ## Tokens of trees -/

namespace Tree

@[simp] theorem tokens_token (t : Token) : (token t).tokens = [t] := by rw [tokens]

@[simp] theorem tokens_node (kind : NodeKind) (span : Span) (label : Option Label)
    (trees : List Tree) : (node kind span label trees).tokens = tokensAll trees := by rw [tokens]

@[simp] theorem tokensAll_nil : tokensAll [] = [] := by rw [tokensAll]

@[simp] theorem tokensAll_cons (t : Tree) (trees : List Tree) :
    tokensAll (t :: trees) = t.tokens ++ tokensAll trees := by rw [tokensAll]

theorem tokensAll_eq_flatMap (trees : List Tree) : tokensAll trees = trees.flatMap tokens := by
  induction trees with
  | nil => rw [tokensAll_nil, List.flatMap_nil]
  | cons t trees ih => rw [tokensAll_cons, ih, List.flatMap_cons]

@[simp] theorem tokensAll_append (trees more : List Tree) :
    tokensAll (trees ++ more) = tokensAll trees ++ tokensAll more := by
  rw [tokensAll_eq_flatMap, tokensAll_eq_flatMap, tokensAll_eq_flatMap, List.flatMap_append]

@[simp] theorem tokensAll_map_token (ts : List Token) : tokensAll (ts.map token) = ts := by
  induction ts with
  | nil => exact tokensAll_nil
  | cons t ts ih => rw [List.map_cons, tokensAll_cons, ih, tokens_token, List.singleton_append]

@[simp] theorem tokens_spanning (kind : NodeKind) (trees : List Tree) (place : Span)
    (label : Option Label) : (spanning kind trees place label).tokens = tokensAll trees :=
  tokens_node ..

@[simp] theorem tokens_overTokens (kind : NodeKind) (ts : List Token) (place : Span) :
    (overTokens kind ts place).tokens = ts := by
  rw [overTokens, tokens_spanning, tokensAll_map_token]

theorem ownedAll_eq_flatMap (owner : NodeKind) (trees : List Tree) :
    ownedAll owner trees = trees.flatMap (owned owner) := by
  induction trees with
  | nil => rw [ownedAll, List.flatMap_nil]
  | cons t trees ih => rw [ownedAll, ih, List.flatMap_cons]

theorem owned_spanning (owner kind : NodeKind) (trees : List Tree) (place : Span) (label : Option Label) :
    (spanning kind trees place label).owned owner = trees.flatMap (owned kind) := by
  rw [spanning, owned, ownedAll_eq_flatMap]

theorem owned_overTokens (owner kind : NodeKind) (ts : List Token) (place : Span) :
    (overTokens kind ts place).owned owner = ts.map fun t => (kind, t) := by
  rw [overTokens, owned_spanning, List.flatMap_map, List.map_eq_flatMap]
  exact List.flatMap_congr fun t _ => by rw [owned]

theorem contentOf_tokensAll (trees : List Tree) :
    contentOf (tokensAll trees) = trees.flatMap text := by
  rw [tokensAll_eq_flatMap]
  exact List.flatMap_assoc

/-- A node spells what its children spell. -/
theorem text_node (kind : NodeKind) (span : Span) (label : Option Label) (trees : List Tree) :
    (node kind span label trees).text = trees.flatMap text := by
  rw [text, tokens_node, contentOf_tokensAll]

end Tree

/-! ## Shapes -/

namespace NodeKind

/-- The nodes over tokens that are not code. -/
def isLeaf : NodeKind → Bool
  | markupText | markupEphemeral | endTag | codeTransition | metaCode | razorComment => true
  | _ => false

/-- The nodes over any trees. -/
def isBranch : NodeKind → Bool
  | document | markupBlock | markupEphemeral | element | startTag | codeBlock | statement
  | statementBody | directiveBody => true
  | _ => false

end NodeKind

/-- A value is spelled by some tokens of a list, from the first of them on and not up to the middle of a
    `\r\n`. -/
def DirectiveValue.IsReadFrom (v : DirectiveValue) (ts : List Token) : Prop :=
  ∃ before first given after rest, ts = before ++ (first :: given) ++ after ∧
    contentOf (first :: given) = v.text ++ rest ∧ ¬ Text.PartsBreak v.text rest ∧
    v.span = ⟨first.span.path, first.span.start, Text.size v.text⟩

namespace Tree

/-- A transition or a piece of syntax that is not code itself. -/
def IsMark (t : Tree) : Prop :=
  ∃ kind ts place, (kind = .codeTransition ∨ kind = .metaCode) ∧ t = overTokens kind ts place

/-- The shapes of the trees that the grammar builds. -/
inductive Shaped : Tree → Prop where
  | token (t : Token) : Shaped (.token t)
  | leaf {kind : NodeKind} (h : kind.isLeaf = true) (ts : List Token) (place : Span) :
      Shaped (overTokens kind ts place)
  | code (ts : List Token) (place : Span) {label : Option Label}
      (plain : ∀ use, label ≠ some (.directive use)) :
      Shaped (spanning .statementCode (ts.map .token) place label)
  | expression {kind : NodeKind} (h : kind = .implicitExpression ∨ kind = .explicitExpression)
      (before after : List Tree) (marks : ∀ t ∈ before ++ after, t.IsMark) (ts : List Token)
      (place place' : Span) :
      Shaped (spanning kind (before ++ overTokens .expressionCode ts place :: after) place')
  | branch {kind : NodeKind} (h : kind.isBranch = true) {trees : List Tree}
      (parts : ∀ t ∈ trees, Shaped t) (place : Span) : Shaped (spanning kind trees place)
  | directive {use : DirectiveUse} {trees : List Tree} (parts : ∀ t ∈ trees, Shaped t)
      (values : ∀ v ∈ use.values, v.IsReadFrom (tokensAll trees)) (place : Span) :
      Shaped (spanning .directive trees place (some (.directive use)))

/-- Among the trees of an expression, all but its piece of code are marks. -/
theorem eq_or_isMark {t u : Tree} {before after : List Tree} (marks : ∀ t ∈ before ++ after, t.IsMark)
    (h : t ∈ before ++ u :: after) : t = u ∨ t.IsMark := by
  rcases List.mem_append.mp h with h | h
  · exact Or.inr (marks t (List.mem_append_left after h))
  · exact (List.mem_cons.mp h).imp_right fun h => marks t (List.mem_append_right before h)

theorem IsMark.shaped {t : Tree} (h : t.IsMark) : t.Shaped := by
  obtain ⟨kind, ts, place, hkind, rfl⟩ := h
  rcases hkind with rfl | rfl
  · exact .leaf rfl ts place
  · exact .leaf rfl ts place

theorem lines_of_isMark {trees : List Tree} (marks : ∀ t ∈ trees, t.IsMark) :
    lines trees = [] ∧ helperLabels trees = [] := by
  induction trees with
  | nil => exact ⟨rfl, rfl⟩
  | cons t trees ih =>
      obtain ⟨kind, ts, place, -, rfl⟩ := marks t (List.mem_cons_self ..)
      obtain ⟨hlines, hlabels⟩ := ih fun u hu => marks u (List.mem_cons_of_mem _ hu)
      obtain ⟨hlines', hlabels'⟩ := lines_overTokens kind ts place
      rw [← List.singleton_append, lines_append, helperLabels_append, hlines, hlabels, hlines', hlabels']
      exact ⟨rfl, rfl⟩

/-- Under a line for tag helpers is no other line, and the one label is that of its code. -/
theorem lines_line {line : HelperLine} {transition code : Tree} {before after : List Tree}
    (hmark : transition.IsMark) (marks : ∀ t ∈ before ++ after, t.IsMark) (hcode : code.IsCodeOf line)
    (place : Span) :
    lines [transition, spanning .directiveBody (before ++ code :: after) place] = [] ∧
      ∃ label, line.Gives label ∧
        helperLabels [transition, spanning .directiveBody (before ++ code :: after) place] = [label] := by
  obtain ⟨hlead, hlead'⟩ := lines_of_isMark (List.forall_mem_singleton.mpr hmark)
  obtain ⟨hbefore, hbefore'⟩ := lines_of_isMark fun t ht => marks t (List.mem_append_left after ht)
  obtain ⟨hafter, hafter'⟩ := lines_of_isMark fun t ht => marks t (List.mem_append_right before ht)
  obtain ⟨hlines, label, hgives, hlabels⟩ := hcode.lines
  obtain ⟨hbody, hbody'⟩ := lines_unlabeled .directiveBody
    (spanOf (before ++ code :: after) place) (before ++ code :: after)
  rw [← List.singleton_append, lines_append, helperLabels_append, hlead, hlead', spanning, hbody, hbody',
    List.append_cons, lines_append, lines_append, helperLabels_append, helperLabels_append, hbefore, hbefore',
    hlines, hlabels, hafter, hafter']
  exact ⟨rfl, label, hgives, rfl⟩

/-- The trees that the grammar builds. -/
structure Parsed (t : Tree) : Prop where
  shaped : t.Shaped
  labeled : Labeled [t]

namespace Parsed

variable {kind : NodeKind} {trees : List Tree}

theorem token (t : Token) : (Tree.token t).Parsed := ⟨.token t, labeled_token t⟩

theorem leaf (h : kind.isLeaf = true) (ts : List Token) (place : Span) : (overTokens kind ts place).Parsed :=
  ⟨.leaf h ts place, labeled_overTokens kind ts place⟩

theorem code (ts : List Token) (place : Span) : (overTokens .statementCode ts place).Parsed :=
  ⟨.code ts place nofun, labeled_overTokens .statementCode ts place⟩

/-- Code that brings something in. -/
theorem importCode (ts : List Token) (place : Span) (space : Text) (isStatic : Bool) (shortName : Option Text) :
    (spanning .statementCode (ts.map .token) place (some (.addImport space isStatic shortName))).Parsed :=
  ⟨.code ts place nofun, labeled_import ts place space isStatic shortName⟩

theorem expression (h : kind = .implicitExpression ∨ kind = .explicitExpression)
    (before after : List Tree) (marks : ∀ t ∈ before ++ after, t.IsMark) (ts : List Token)
    (place place' : Span) :
    (spanning kind (before ++ overTokens .expressionCode ts place :: after) place').Parsed := by
  refine ⟨.expression h before after marks ts place place', .spanning (labeled_of_forall ?_) _ _⟩
  intro t ht
  rcases eq_or_isMark marks ht with rfl | ⟨kind, us, place, -, rfl⟩
  · exact labeled_overTokens _ ts place
  · exact labeled_overTokens kind us place

theorem branch (h : kind.isBranch = true) (parts : ∀ t ∈ trees, t.Parsed) (place : Span) :
    (spanning kind trees place).Parsed :=
  ⟨.branch h (fun t ht => (parts t ht).shaped) place,
    .spanning (labeled_of_forall fun t ht => (parts t ht).labeled) kind place⟩

/-- A directive that is not a line for tag helpers. -/
theorem directive {use : DirectiveUse} (h : use.directive.shape ≠ .restOfLine) (parts : ∀ t ∈ trees, t.Parsed)
    (values : ∀ v ∈ use.values, v.IsReadFrom (tokensAll trees)) (place : Span) :
    (spanning .directive trees place (some (.directive use))).Parsed := by
  refine ⟨.directive (fun t ht => (parts t ht).shaped) values place, ?_⟩
  obtain ⟨hlines, hlabels⟩ := lines_directive use trees place
  rw [Labeled, hlines, hlabels, DirectiveUse.line?, dif_neg h]
  exact labeled_of_forall fun t ht => (parts t ht).labeled

/-- A directive that is a line for tag helpers: its text is its value, and its code has the label of the text. -/
theorem line {use : DirectiveUse} {line : HelperLine} (hline : use.line? = some line) {transition code : Tree}
    {before after : List Tree} (hmark : transition.IsMark) (marks : ∀ t ∈ before ++ after, t.IsMark)
    (hcode : code.IsCodeOf line) (place place' : Span) (values : ∀ v ∈ use.values,
      v.IsReadFrom (tokensAll [transition, spanning .directiveBody (before ++ code :: after) place])) :
    (spanning .directive [transition, spanning .directiveBody (before ++ code :: after) place] place'
      (some (.directive use))).Parsed := by
  -- The code of a line is not `Parsed` without its directive, so nothing is known of the body but its shape.
  have hbody : ∀ t ∈ before ++ code :: after, t.Shaped := by
    intro t ht
    rcases eq_or_isMark marks ht with rfl | hmark
    · obtain ⟨ts, place, _, ⟨span, rfl⟩, rfl⟩ := hcode
      exact .code ts place (Grammar.tagHelperLabel_plain line.directive line.text span)
    · exact hmark.shaped
  constructor
  · refine .directive ?_ values place'
    intro t ht
    rcases List.mem_pair.mp ht with rfl | rfl
    · exact hmark.shaped
    · exact .branch rfl hbody place
  · obtain ⟨hlines, label, hgives, hlabels⟩ := lines_line hmark marks hcode place
    obtain ⟨hdirective, hdirective'⟩ := lines_directive use
      [transition, spanning .directiveBody (before ++ code :: after) place] place'
    rw [Labeled, hdirective, hdirective', hline, hlines, hlabels]
    exact .cons hgives .nil

end Parsed

theorem IsMark.parsed {t : Tree} (h : t.IsMark) : t.Parsed := by
  obtain ⟨kind, ts, place, -, rfl⟩ := id h
  exact ⟨h.shaped, labeled_overTokens kind ts place⟩

/-- All of some trees are such as the grammar builds. -/
def AllParsed (trees : List Tree) : Prop := ∀ t ∈ trees, t.Parsed

variable {t : Tree} {trees more : List Tree}

@[simp] theorem allParsed_nil : AllParsed [] := fun _ h => nomatch h

theorem AllParsed.append (h : AllParsed trees) (h' : AllParsed more) :
    AllParsed (trees ++ more) := by
  intro t ht
  rcases List.mem_append.mp ht with ht | ht
  · exact h t ht
  · exact h' t ht

theorem AllParsed.cons (h : t.Parsed) (h' : AllParsed trees) : AllParsed (t :: trees) := by
  intro u hu
  rcases List.mem_cons.mp hu with rfl | hu
  · exact h
  · exact h' u hu

theorem AllParsed.single (h : t.Parsed) : AllParsed [t] := .cons h allParsed_nil

theorem allParsed_tokens (ts : List Token) : AllParsed (ts.map .token) := by
  intro t ht
  obtain ⟨u, -, rfl⟩ := List.mem_map.mp ht
  exact .token u

end Tree

end RazorLang
