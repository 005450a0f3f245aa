import RazorLang.Proofs.Token.Run
import RazorLang.Proofs.Tree.Nodes

/-!
# The tokens that nodes begin with

Some nodes can be told apart by a token: the one that the first tree under them begins with (`Tree.lead?`), as
an element begins with a tag, and an expression with a transition. Where the first tree under such a node is
not one of them itself, their tokens are different tokens of the source, in the order of the nodes.

Main statements: `Tree.sublist_leads`, `Tree.pairwise_leads`.
-/

namespace RazorLang.Tree

variable {p : Tree → Bool} {t n m : Tree} {trees : List Tree}

/-- The token that the first tree under a node begins with, if it begins with one. -/
def lead? (n : Tree) : Option Token := n.children.head?.bind fun c => c.children.head?.bind token?

/-- The tokens that the nodes of a sort among some nodes begin with. -/
def leads (p : Tree → Bool) (nodes : List Tree) : List Token := (nodes.filter p).filterMap lead?

theorem leads_append (p : Tree → Bool) (nodes more : List Tree) :
    leads p (nodes ++ more) = leads p nodes ++ leads p more := by
  rw [leads, List.filter_append, List.filterMap_append, leads, leads]

theorem leads_nodesAll (h : ∀ c ∈ trees, (leads p c.nodes).Sublist c.tokens) :
    (leads p (nodesAll trees)).Sublist (tokensAll trees) := by
  induction trees with
  | nil => exact List.nil_sublist _
  | cons c trees ih =>
      rw [nodesAll, leads_append, tokensAll_cons]
      exact (h c (List.mem_cons_self ..)).append (ih fun d hd => h d (List.mem_cons_of_mem c hd))

/-- The first tree under a node of a sort is not of that sort. -/
def StartsPlain (p : Tree → Bool) (n : Tree) : Prop := p n = true → ∀ c ∈ n.children.head?, p c = false

/-- What the tokens of a tree are that the nodes below it can begin with: all but the one that the tree begins
    with, if it is the first tree under a node of the sort. -/
def LeadsIn (p : Tree → Bool) (t : Tree) : Prop :=
  (leads p t.nodes).Sublist t.tokens ∧
    (p t = false → ∀ u, t.children.head? = some (token u) →
      ∃ rest, t.tokens = u :: rest ∧ (leads p t.nodes).Sublist rest)

theorem leadsIn_node {kind : NodeKind} {span : Span} {label : Option Label}
    (hplain : StartsPlain p (node kind span label trees)) (h : ∀ c ∈ trees, LeadsIn p c) :
    LeadsIn p (node kind span label trees) := by
  have hbelow := leads_nodesAll fun c hc => (h c hc).1
  unfold LeadsIn
  rw [nodes, tokens_node, leads, List.filter_cons]
  split
  · next hp =>
      refine ⟨?_, fun hnot => absurd (hp.symm.trans hnot) (Bool.false_ne_true ·.symm)⟩
      rw [List.filterMap_cons]
      split
      · exact hbelow
      · next u hlead =>
          obtain ⟨c, hc, hu⟩ := Option.bind_eq_some_iff.mp hlead
          obtain ⟨first, hfirst, hu⟩ := Option.bind_eq_some_iff.mp hu
          obtain rfl := eq_token_of_token? hu
          obtain ⟨more, rfl⟩ := List.head?_eq_some_iff.mp hc
          obtain ⟨-, hinner⟩ := h c (List.mem_cons_self ..)
          obtain ⟨rest, htokens, hrest⟩ := hinner (hplain hp c hc) u hfirst
          have hmore := leads_nodesAll fun d hd => (h d (List.mem_cons_of_mem c hd)).1
          rw [nodesAll, tokensAll_cons, htokens, List.cons_append]
          refine .cons_cons u ?_
          rw [← leads, leads_append]
          exact hrest.append hmore
  · next hp =>
      refine ⟨hbelow, fun _ u hu => ?_⟩
      obtain ⟨rest, rfl⟩ := List.head?_eq_some_iff.mp hu
      refine ⟨tokensAll rest, rfl, ?_⟩
      rw [nodesAll, nodes_token, List.nil_append]
      exact leads_nodesAll fun d hd => (h d (List.mem_cons_of_mem _ hd)).1

/-- The tokens that nodes of a sort begin with are tokens of the tree, one for each of the nodes. -/
theorem sublist_leads (h : ∀ n ∈ t.nodes, StartsPlain p n) : (leads p t.nodes).Sublist t.tokens := by
  suffices h : LeadsIn p t from h.1
  induction t using induct with
  | token t =>
      refine ⟨?_, fun _ u hu => nomatch hu⟩
      rw [nodes_token]
      exact List.nil_sublist _
  | node kind span label children ih =>
      refine leadsIn_node (h _ (mem_nodes_node.mpr (.inl rfl))) fun c hc => ih c hc fun n hn => h n ?_
      exact mem_nodes_node.mpr (.inr ⟨c, hc, hn⟩)

/-- In the order of the nodes, the tokens that they begin with start one behind the other, if they are not
    empty. -/
theorem pairwise_leads {path : Option Text} {l l' : Location} {s s' : Text}
    (hrun : Token.Run path l s t.tokens l' s') (h : ∀ n ∈ t.nodes, StartsPlain p n)
    (hne : ∀ n ∈ t.nodes, p n = true → ∃ u ∈ n.lead?, u.content ≠ []) :
    (t.nodes.filter p).Pairwise fun n m =>
      ∃ u ∈ n.lead?, ∃ v ∈ m.lead?, u.span.start.offset < v.span.start.offset := by
  have hleads := sublist_leads h
  have hpairs := hrun.pairwise.sublist hleads
  rw [leads, List.pairwise_filterMap] at hpairs
  refine hpairs.imp_of_mem fun {n m} hn hm hbehind => ?_
  obtain ⟨hnode, hp⟩ := List.mem_filter.mp hn
  obtain ⟨u, hu, hcontent⟩ := hne n hnode hp
  obtain ⟨v, hv, -⟩ := hne m (List.mem_filter.mp hm).1 (List.mem_filter.mp hm).2
  refine ⟨u, hu, v, hv, Nat.lt_of_lt_of_le ?_ (hbehind u hu v hv)⟩
  obtain ⟨before, after, htokens⟩ := List.append_of_mem (hleads.mem (List.mem_filterMap.mpr ⟨n, hn, hu⟩))
  rw [htokens] at hrun
  obtain ⟨l₁, s₁, -, hrest⟩ := hrun.append
  rw [Span.stop, hrest.head_span]
  exact Nat.lt_add_of_pos_right (Text.size_pos_of_ne_nil hcontent)

end RazorLang.Tree
