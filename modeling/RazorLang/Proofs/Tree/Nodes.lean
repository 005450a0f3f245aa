import RazorLang.Proofs.Tree.Parsed

/-!
# Nodes below a node

Induction over trees (`Tree.induct`), and which nodes lie below which.
-/

namespace RazorLang.Tree

/-- What holds of tokens, and of a node if it holds of all trees under it, holds of all trees. -/
theorem induct {P : Tree → Prop} (token : ∀ t, P (.token t))
    (node : ∀ kind span label children, (∀ c ∈ children, P c) → P (.node kind span label children))
    (t : Tree) : P t := by
  induction t using Tree.rec (motive_2 := fun trees => ∀ c ∈ trees, P c) with
  | token t => exact token t
  | node kind span label children ih => exact node kind span label children ih
  | nil => exact nomatch ‹_ ∈ []›
  | cons t trees iht ihtrees =>
      rename_i c hc
      rcases List.mem_cons.mp hc with rfl | hc
      · exact iht
      · exact ihtrees c hc

/-- The tokens with their owners are the tokens. -/
theorem map_snd_owned (owner : NodeKind) (t : Tree) : (t.owned owner).map Prod.snd = t.tokens := by
  induction t using induct generalizing owner with
  | token t => rw [owned, tokens_token, List.map_singleton]
  | node kind span label children ih =>
      rw [owned, ownedAll_eq_flatMap, List.map_flatMap, tokens_node, tokensAll_eq_flatMap]
      exact List.flatMap_congr fun t ht => ih t ht kind

theorem mem_nodesAll {n : Tree} {trees : List Tree} :
    n ∈ nodesAll trees ↔ ∃ t ∈ trees, n ∈ t.nodes := by
  induction trees with
  | nil =>
      rw [nodesAll]
      constructor
      · exact fun h => absurd h List.not_mem_nil
      · rintro ⟨t, ht, -⟩
        exact absurd ht List.not_mem_nil
  | cons t trees ih =>
      rw [nodesAll, List.mem_append, ih]
      constructor
      · rintro (h | ⟨u, hu, h⟩)
        · exact ⟨t, List.mem_cons_self .., h⟩
        · exact ⟨u, List.mem_cons_of_mem t hu, h⟩
      · rintro ⟨u, hu, h⟩
        rcases List.mem_cons.mp hu with rfl | hu
        · exact Or.inl h
        · exact Or.inr ⟨u, hu, h⟩

theorem mem_nodes_node {n : Tree} {kind : NodeKind} {span : Span} {label : Option Label}
    {children : List Tree} :
    n ∈ (node kind span label children).nodes ↔
      n = node kind span label children ∨ ∃ t ∈ children, n ∈ t.nodes := by
  rw [nodes, List.mem_cons, mem_nodesAll]

/-- A tree of a kind is one of its own nodes. -/
theorem mem_nodes_self {t : Tree} {kind : NodeKind} (h : t.kind? = some kind) : t ∈ t.nodes := by
  cases t with
  | token t => exact nomatch h
  | node k span label children => exact mem_nodes_node.mpr (Or.inl rfl)

theorem kind_of_mem_nodes {t n : Tree} (h : n ∈ t.nodes) : ∃ kind, n.kind? = some kind := by
  induction t using induct with
  | token t => rw [nodes_token] at h; exact absurd h List.not_mem_nil
  | node kind span label children ih =>
      rcases mem_nodes_node.mp h with rfl | ⟨u, hu, hn⟩
      · exact ⟨kind, rfl⟩
      · exact ih u hu hn

/-- The nodes of a tree under a node are nodes of that node too. -/
theorem nodes_subset_of_mem_children {t u n : Tree} (hu : u ∈ t.children) (hn : n ∈ u.nodes) :
    n ∈ t.nodes := by
  cases t with
  | token t => exact absurd hu List.not_mem_nil
  | node kind span label children => exact mem_nodes_node.mpr (Or.inr ⟨u, hu, hn⟩)

/-- The nodes of a node of a tree are nodes of the tree. -/
theorem nodes_trans {t n m : Tree} (hn : n ∈ t.nodes) (hm : m ∈ n.nodes) : m ∈ t.nodes := by
  induction t using induct with
  | token t => rw [nodes_token] at hn; exact absurd hn List.not_mem_nil
  | node kind span label children ih =>
      rcases mem_nodes_node.mp hn with rfl | ⟨u, hu, hn⟩
      · exact hm
      · exact mem_nodes_node.mpr (Or.inr ⟨u, hu, ih u hu hn⟩)

theorem mem_nodes_of_mem_descendants {t n : Tree} (h : n ∈ t.descendants) : n ∈ t.nodes := by
  obtain ⟨u, hu, hn⟩ := mem_nodesAll.mp h
  exact nodes_subset_of_mem_children hu hn

/-- The tokens of a node follow one another among the tokens of the tree. -/
theorem tokens_of_mem_nodes {t n : Tree} (h : n ∈ t.nodes) :
    ∃ before after, t.tokens = before ++ n.tokens ++ after := by
  induction t using induct with
  | token t => rw [nodes_token] at h; exact absurd h List.not_mem_nil
  | node kind span label children ih =>
      rcases mem_nodes_node.mp h with rfl | ⟨u, hu, hn⟩
      · exact ⟨[], [], by simp⟩
      · obtain ⟨before, after, htokens⟩ := ih u hu hn
        obtain ⟨left, right, rfl⟩ := List.append_of_mem hu
        refine ⟨tokensAll left ++ before, after ++ tokensAll right, ?_⟩
        rw [tokens_node, tokensAll_append, tokensAll_cons, htokens]
        simp only [List.append_assoc]

theorem tokens_children {t : Tree} {kind : NodeKind} (h : t.kind? = some kind) :
    tokensAll t.children = t.tokens := by
  cases t with
  | token t => exact nomatch h
  | node k span label children => exact (tokens_node ..).symm

theorem text_children {t : Tree} {kind : NodeKind} (h : t.kind? = some kind) : t.text = t.children.flatMap text := by
  rw [← contentOf_tokensAll, tokens_children h, text]

theorem eq_token_of_token? {t : Tree} {u : Token} (h : t.token? = some u) : t = token u := by
  cases t with
  | token v => rw [Option.some.inj h]
  | node => exact nomatch h

/-- The tokens of what is under a node are tokens of the node. -/
theorem mem_tokens_of_mem_children {n c : Tree} {u : Token} (hc : c ∈ n.children) (hu : u ∈ c.tokens) :
    u ∈ n.tokens := by
  cases n with
  | token t => exact absurd hc List.not_mem_nil
  | node kind span label children =>
      rw [tokens_node, tokensAll_eq_flatMap]
      exact List.mem_flatMap.mpr ⟨c, hc, hu⟩

theorem mem_tokens_of_token_mem {n : Tree} {u : Token} (h : token u ∈ n.children) : u ∈ n.tokens := by
  refine mem_tokens_of_mem_children h ?_
  rw [tokens_token]
  exact List.mem_singleton_self u

/-- A node over tokens is its only node. -/
theorem mem_nodes_overTokens {n : Tree} {kind : NodeKind} {ts : List Token} {place : Span}
    {label : Option Label} (h : n ∈ (spanning kind (ts.map token) place label).nodes) :
    n = spanning kind (ts.map token) place label := by
  rw [spanning, nodes, nodesAll_tokens, List.mem_singleton] at h
  exact h

/-- Each node of a tree that the grammar builds is such a tree, or the code of an expression. -/
theorem Shaped.of_mem_nodes {t n : Tree} (h : t.Shaped) (hn : n ∈ t.nodes) :
    n.Shaped ∨ ∃ ts place, n = overTokens .expressionCode ts place := by
  have hinner {kind : NodeKind} {trees : List Tree} {place : Span} {label : Option Label}
      (hself : (spanning kind trees place label).Shaped)
      (ih : ∀ t ∈ trees, n ∈ t.nodes →
        n.Shaped ∨ ∃ ts place, n = overTokens .expressionCode ts place)
      (hn : n ∈ (spanning kind trees place label).nodes) :
      n.Shaped ∨ ∃ ts place, n = overTokens .expressionCode ts place := by
    rcases mem_nodes_node.mp hn with rfl | ⟨t, ht, hn⟩
    · exact Or.inl hself
    · exact ih t ht hn
  induction h with
  | token t => rw [nodes_token] at hn; exact absurd hn List.not_mem_nil
  | leaf hkind ts place =>
      rw [mem_nodes_overTokens hn]
      exact Or.inl (.leaf hkind ts place)
  | code ts place plain =>
      rw [mem_nodes_overTokens hn]
      exact Or.inl (.code ts place plain)
  | expression hkind before after marks ts place place' =>
      refine hinner (.expression hkind before after marks ts place place') (fun t ht hn => ?_) hn
      rcases eq_or_isMark marks ht with rfl | hmark
      · exact Or.inr ⟨ts, place, mem_nodes_overTokens hn⟩
      · obtain ⟨kind, us, place, hkind, rfl⟩ := hmark
        rw [mem_nodes_overTokens hn]
        exact Or.inl (IsMark.shaped ⟨kind, us, place, hkind, rfl⟩)
  | branch hkind parts place ih => exact hinner (.branch hkind parts place) ih hn
  | directive parts values place ih => exact hinner (.directive parts values place) ih hn

end RazorLang.Tree
