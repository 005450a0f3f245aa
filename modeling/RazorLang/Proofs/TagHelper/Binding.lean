import Mathlib.Data.List.Basic
import RazorLang.Proofs.Tree.Nodes
import RazorLang.TagHelper.Binding

/-!
# Binding keeps the source

Binding turns elements into elements with tag helpers and leaves everything else of a tree alone: its
tokens, its spans, its pieces of code and its directives. The one fact about the recursion is
`bindTree_node`; each node of a bound tree is a bound node of the tree (`mem_nodes_bindTree`).
-/

namespace RazorLang

open RazorLang.Tree

namespace TagHelperScope

variable {c : TagHelperScope}

theorem bindAll_eq (c : TagHelperScope) (parent : Option Text) (trees : List Tree) :
    c.bindAll parent trees = trees.map (c.bindTree parent) := by
  induction trees with
  | nil => rw [bindAll, List.map_nil]
  | cons t trees ih => rw [bindAll, ih, List.map_cons]

/-- A node is bound as the node it is, or, if it is an element, as one with tag helpers. -/
theorem bindTree_node (c : TagHelperScope) (parent : Option Text) (kind : NodeKind) (span : Span)
    (label : Option Label) (children : List Tree) :
    ∃ kind' label' parent', c.bindTree parent (.node kind span label children) =
        .node kind' span label' (children.map (c.bindTree parent')) ∧
      ((kind' = kind ∧ label' = label) ∨
        (kind = .element ∧ kind' = .tagHelperElement ∧ ∃ b, label' = some (.tagHelper b))) := by
  rw [bindTree]
  split
  · exact ⟨kind, label, parent, by rw [bindAll_eq], Or.inl ⟨rfl, rfl⟩⟩
  · next name attributes hstart =>
      dsimp only
      split
      · next b _ =>
          refine ⟨.tagHelperElement, some (.tagHelper b), some name, by rw [bindAll_eq], Or.inr ?_⟩
          refine ⟨?_, rfl, b, rfl⟩
          by_cases hkind : kind = .element
          · exact hkind
          · rw [startTag?, if_neg hkind] at hstart
            cases hstart
      · exact ⟨kind, label, some name, by rw [bindAll_eq], Or.inl ⟨rfl, rfl⟩⟩

theorem tokens_bindTree (parent : Option Text) (t : Tree) :
    (c.bindTree parent t).tokens = t.tokens := by
  induction t using Tree.induct generalizing parent with
  | token t => rw [bindTree_token]
  | node kind span label children ih =>
      obtain ⟨kind', label', parent', hbind, -⟩ := bindTree_node c parent kind span label children
      rw [hbind, tokens_node, tokens_node, tokensAll_eq_flatMap, tokensAll_eq_flatMap,
        List.flatMap_map]
      exact List.flatMap_congr fun t ht => ih t ht parent'

theorem span_bindTree (parent : Option Text) (t : Tree) :
    (c.bindTree parent t).span = t.span := by
  cases t with
  | token t => rw [bindTree_token]
  | node kind span label children =>
      obtain ⟨kind', label', parent', hbind, -⟩ := bindTree_node c parent kind span label children
      rw [hbind]
      rfl

/-- A bound node has the kind of the node, or is an element with tag helpers. -/
theorem kind_bindTree {parent : Option Text} {t : Tree} {kind : NodeKind}
    (h : (c.bindTree parent t).kind? = some kind) (hkind : kind ≠ .tagHelperElement) :
    t.kind? = some kind := by
  cases t with
  | token t =>
      rw [bindTree_token] at h
      exact h
  | node kind' span label children =>
      obtain ⟨_, _, _, hbind, hcases⟩ := bindTree_node c parent kind' span label children
      rw [hbind] at h
      rcases hcases with ⟨rfl, -⟩ | ⟨-, rfl, -⟩
      · exact h
      · exact absurd (Option.some.inj h).symm hkind

/-- A bound node stands for the directive that the node stands for. -/
theorem directive_bindTree {parent : Option Text} {t : Tree} {use : DirectiveUse}
    (h : (c.bindTree parent t).directive? = some use) : t.directive? = some use := by
  cases t with
  | token t =>
      rw [bindTree_token] at h
      exact h
  | node kind span label children =>
      obtain ⟨_, _, _, hbind, hcases⟩ := bindTree_node c parent kind span label children
      rw [hbind] at h
      rcases hcases with ⟨-, rfl⟩ | ⟨-, -, b, rfl⟩
      · exact h
      · exact nomatch h

/-- A node of a bound tree is a bound node of the tree. -/
theorem mem_nodes_bindTree {parent : Option Text} {t n : Tree}
    (h : n ∈ (c.bindTree parent t).nodes) :
    ∃ m ∈ t.nodes, ∃ parent', n = c.bindTree parent' m := by
  induction t using Tree.induct generalizing parent with
  | token t =>
      rw [bindTree_token, nodes_token] at h
      exact absurd h List.not_mem_nil
  | node kind span label children ih =>
      obtain ⟨_, _, parent', hbind, -⟩ := bindTree_node c parent kind span label children
      rw [hbind, mem_nodes_node, ← hbind] at h
      rcases h with rfl | ⟨u, hu, hn⟩
      · exact ⟨_, mem_nodes_node.mpr (Or.inl rfl), parent, rfl⟩
      · obtain ⟨t, ht, rfl⟩ := List.mem_map.mp hu
        obtain ⟨m, hm, hbound⟩ := ih t ht hn
        exact ⟨m, mem_nodes_node.mpr (Or.inr ⟨t, ht, hm⟩), hbound⟩

/-- Binding leaves a node over tokens as it is. -/
theorem bindTree_overTokens {kind : NodeKind} (hkind : kind ≠ .element) (parent : Option Text)
    (ts : List Token) (place : Span) (label : Option Label) :
    c.bindTree parent (spanning kind (ts.map .token) place label) =
      spanning kind (ts.map .token) place label := by
  obtain ⟨kind', label', parent', hbind, ⟨rfl, rfl⟩ | ⟨helement, -⟩⟩ :=
    bindTree_node c parent kind (spanOf (ts.map .token) place) label (ts.map .token)
  · rw [spanning, hbind, List.map_map]
    refine congrArg (node kind' _ label') (List.map_congr_left fun t _ => ?_)
    exact bindTree_token c parent' t
  · exact absurd helement hkind

/-- Binding leaves an expression as it is. -/
theorem bindTree_expression {kind : NodeKind} (hkind : kind ≠ .element) (parent : Option Text)
    {before after : List Tree} (marks : ∀ t ∈ before ++ after, t.IsMark) (ts : List Token)
    (place place' : Span) :
    c.bindTree parent (spanning kind (before ++ overTokens .expressionCode ts place :: after) place') =
      spanning kind (before ++ overTokens .expressionCode ts place :: after) place' := by
  obtain ⟨kind', label', parent', hbind, ⟨rfl, rfl⟩ | ⟨helement, -⟩⟩ :=
    bindTree_node c parent kind
      (spanOf (before ++ overTokens .expressionCode ts place :: after) place') none
      (before ++ overTokens .expressionCode ts place :: after)
  · rw [spanning, hbind]
    refine congrArg (node kind' _ none) ((List.map_congr_left fun t ht => ?_).trans (List.map_id _))
    rcases eq_or_isMark marks ht with rfl | ⟨kind, us, place, hmark, rfl⟩
    · exact bindTree_overTokens (by decide) _ _ _ _
    · exact bindTree_overTokens (by rcases hmark with rfl | rfl <;> decide) _ _ _ _
  · exact absurd helement hkind

theorem bind?_eq_none (hnone : c.helpers = []) (name : Text) (attributes : List Text)
    (parent : Option Text) : c.bind? name attributes parent = none := by
  have hfilter (p : TagHelper → Bool) : c.helpers.filter p = [] := by rw [hnone]; rfl
  unfold bind?
  simp only [hfilter]
  cases c.tagPrefix with
  | none => rfl
  | some lead =>
      show (Text.after? lead name).bind (fun _ => none) = none
      cases Text.after? lead name with
      | none => rfl
      | some tag => rfl

/-- Where no tag helper is in scope, binding leaves a tree as it is. -/
theorem bindTree_eq_self (hnone : c.helpers = []) (parent : Option Text) (t : Tree) :
    c.bindTree parent t = t := by
  induction t using Tree.induct generalizing parent with
  | token t => rw [bindTree_token]
  | node kind span label children ih =>
      have hchildren (parent : Option Text) : c.bindAll parent children = children := by
        rw [bindAll_eq]
        exact (List.map_congr_left fun t ht => ih t ht parent).trans (List.map_id children)
      rw [bindTree]
      split
      · rw [hchildren]
      · next name attributes _ =>
          dsimp only
          rw [bind?_eq_none hnone, hchildren]

end TagHelperScope

end RazorLang
