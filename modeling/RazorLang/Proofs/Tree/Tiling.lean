import Mathlib.Data.List.Chain
import RazorLang.Proofs.Tree.Nodes

/-!
# Trees that stand one behind the other

Some trees tile a stretch of a source if the first starts where the stretch does, each starts where the one
before it ends, and the last ends where the stretch does; trees without text stand at one offset. A node over
trees that tile a stretch covers it and is contiguous (`Tiles.isContiguous_spanning`).

The node of a closed explicit expression without code, `@()`, is the one that the grammar builds of trees
that do not tile anything: its piece of code, which is empty, stands behind the closing parenthesis, as the
tree before it does (`Tree.IsHollow`).
-/

namespace RazorLang.Tree

variable {l m k : Nat} {t n : Tree} {trees more : List Tree}

/-! ## Stretches -/

/-- Some trees cover a stretch of offsets, each starting where the one before it ends. -/
def Tiles (l : Nat) : List Tree → Nat → Prop
  | [], m => l = m
  | t :: ts, m => t.span.start.offset = l ∧ Tiles t.span.stop ts m

theorem tiles_append : Tiles l (trees ++ more) k ↔ ∃ m, Tiles l trees m ∧ Tiles m more k := by
  induction trees generalizing l with
  | nil =>
      constructor
      · exact fun h => ⟨l, rfl, h⟩
      · rintro ⟨m, rfl, h⟩
        exact h
  | cons t trees ih =>
      constructor
      · rintro ⟨hstart, hrest⟩
        obtain ⟨m, htrees, hmore⟩ := ih.mp hrest
        exact ⟨m, ⟨hstart, htrees⟩, hmore⟩
      · rintro ⟨m, ⟨hstart, htrees⟩, hmore⟩
        exact ⟨hstart, ih.mpr ⟨m, htrees, hmore⟩⟩

theorem Tiles.append (h : Tiles l trees m) (h' : Tiles m more k) : Tiles l (trees ++ more) k :=
  tiles_append.mpr ⟨m, h, h'⟩

theorem tiles_single : Tiles l [t] m ↔ t.span.start.offset = l ∧ t.span.stop = m := Iff.rfl

theorem Tiles.le (h : Tiles l trees m) : l ≤ m := by
  induction trees generalizing l with
  | nil => exact Nat.le_of_eq h
  | cons t trees ih =>
      obtain ⟨rfl, hrest⟩ := h
      exact Nat.le_trans (Nat.le_add_right _ _) (ih hrest)

theorem Tiles.head (h : Tiles l trees m) : ∀ t ∈ trees.head?, t.span.start.offset = l := by
  intro t ht
  cases trees with
  | nil => exact nomatch ht
  | cons u trees =>
      rw [← Option.some.inj ht]
      exact h.1

theorem Tiles.last (h : Tiles l trees m) : ∀ t ∈ trees.getLast?, t.span.stop = m := by
  intro t ht
  obtain ⟨before, rfl⟩ := List.getLast?_eq_some_iff.mp ht
  obtain ⟨k, -, hlast⟩ := tiles_append.mp h
  exact hlast.2

theorem Tiles.isChain (h : Tiles l trees m) :
    trees.IsChain fun a b => b.span.start.offset = a.span.stop := by
  induction trees generalizing l with
  | nil => exact .nil
  | cons t trees ih =>
      refine List.isChain_cons.mpr ⟨fun u hu => ?_, ih h.2⟩
      exact h.2.head u hu

/-- Some tokens cover a stretch, each starting where the one before it ends. -/
def TokensLie (l : Nat) (tokens : List Token) (m : Nat) : Prop := Tiles l (tokens.map .token) m

theorem tokensLie_nil : TokensLie l [] l := rfl

theorem TokensLie.append {tokens others : List Token} (h : TokensLie l tokens m)
    (h' : TokensLie m others k) : TokensLie l (tokens ++ others) k := by
  unfold TokensLie
  rw [List.map_append]
  exact Tiles.append h h'

/-- Tokens that follow one another in a text tile the stretch between them. -/
theorem tokensLie_of_run {path : Option Text} {place place' : Location} {s s' : Text} {tokens : List Token}
    (h : Token.Run path place s tokens place' s') : TokensLie place.offset tokens place'.offset := by
  induction h with
  | nil place s => exact tokensLie_nil
  | @cons place place' t u s' tokens hspan hwhole tail ih =>
      have hstop : t.span.stop = (place.advance t.content).offset := by
        rw [hspan, Location.advance_offset]
        rfl
      refine ⟨by rw [span, hspan], ?_⟩
      show Tiles t.span.stop _ _
      rw [hstop]
      exact ih

/-! ## Nodes -/

/-- The children of a node follow one another without a gap from its start to its end; without children it is
    empty. -/
structure IsContiguous (n : Tree) : Prop where
  /-- The node starts where its first child does. -/
  first : ∀ c ∈ n.children.head?, c.span.start.offset = n.span.start.offset
  /-- A child starts where the one before it ends. -/
  adjacent : n.children.IsChain fun a b => b.span.start.offset = a.span.stop
  /-- The node ends where its last child does. -/
  last : ∀ c ∈ n.children.getLast?, c.span.stop = n.span.stop
  /-- A node without children has no bytes. -/
  empty : n.children = [] → n.span.length = 0

theorem tiles_of_isChain {first : Tree} {m : Nat}
    (h : (first :: trees).IsChain fun a b => b.span.start.offset = a.span.stop)
    (hlast : ∀ c ∈ (first :: trees).getLast?, c.span.stop = m) :
    Tiles first.span.start.offset (first :: trees) m := by
  induction trees generalizing first with
  | nil => exact ⟨rfl, hlast first rfl⟩
  | cons next trees ih =>
      obtain ⟨hnext, hrest⟩ := List.isChain_cons_cons.mp h
      refine ⟨rfl, ?_⟩
      rw [← hnext]
      exact ih hrest fun c hc => hlast c (by rwa [List.getLast?_cons_cons])

/-- The children of a contiguous node tile it. -/
theorem IsContiguous.tiles (h : n.IsContiguous) : Tiles n.span.start.offset n.children n.span.stop := by
  obtain ⟨hfirst, hadjacent, hlast, hempty⟩ := h
  generalize n.children = trees at hfirst hadjacent hlast hempty
  cases trees with
  | nil => exact (congrArg (n.span.start.offset + ·) (hempty rfl)).symm
  | cons c trees =>
      rw [← hfirst c rfl]
      exact tiles_of_isChain hadjacent hlast

/-- A closed explicit expression whose code is empty. -/
def IsHollow (n : Tree) : Prop :=
  ∃ transition opened code closed, n.kind? = some .explicitExpression ∧
    n.children = [transition, opened, code, closed] ∧ code.kind? = some .expressionCode ∧
    code.children = []

theorem IsHollow.kind (h : n.IsHollow) : n.kind? = some .explicitExpression := by
  obtain ⟨_, _, _, _, hkind, -⟩ := h
  exact hkind

/-- The third of the four children of a node is empty and stands at the end of the node, behind the fourth,
    which is not; the others tile the node. -/
def IsDisplaced (n : Tree) : Prop :=
  ∃ first second third fourth, n.children = [first, second, third, fourth] ∧
    Tiles n.span.start.offset [first, second, fourth] n.span.stop ∧ 0 < fourth.span.length ∧
    third.span.length = 0 ∧ third.span.start.offset = n.span.stop

/-- A node with such a child is not contiguous. -/
theorem IsDisplaced.not_isContiguous (h : n.IsDisplaced) : ¬ n.IsContiguous := by
  obtain ⟨first, second, third, fourth, hchildren, htiles, hfourth, -, hthird⟩ := h
  rintro ⟨-, hadjacent, -, -⟩
  rw [hchildren] at hadjacent
  obtain ⟨-, hstart, hstop⟩ := htiles
  have hgap : third.span.start.offset = second.span.stop :=
    (List.isChain_cons_cons.mp (List.isChain_cons_cons.mp hadjacent).2).1
  have hend : fourth.span.start.offset + fourth.span.length = n.span.stop := hstop.2
  have hnext : fourth.span.start.offset = second.span.stop := hstop.1
  omega

/-! ## The tokens of a node -/

theorem Tiles.tokensLie (h : Tiles l trees m)
    (htrees : ∀ c ∈ trees, TokensLie c.span.start.offset c.tokens c.span.stop) :
    TokensLie l (tokensAll trees) m := by
  induction trees generalizing l with
  | nil => exact h
  | cons c trees ih =>
      obtain ⟨rfl, hrest⟩ := h
      rw [tokensAll_cons]
      refine (htrees c (List.mem_cons_self ..)).append (ih hrest fun e he => ?_)
      exact htrees e (List.mem_cons_of_mem c he)

/-- The tokens of a tree lie where the tree does, if each node in it is contiguous, or hollow with its code
    displaced. -/
theorem tokensLie_tokens (h : ∀ n ∈ t.nodes, n.IsContiguous ∨ (n.IsHollow ∧ n.IsDisplaced)) :
    TokensLie t.span.start.offset t.tokens t.span.stop := by
  induction t using induct with
  | token t => exact ⟨rfl, rfl⟩
  | node kind span label children ih =>
      have hchildren : ∀ c ∈ children, TokensLie c.span.start.offset c.tokens c.span.stop := fun c hc =>
        ih c hc fun n hn => h n (mem_nodes_node.mpr (.inr ⟨c, hc, hn⟩))
      rw [tokens_node]
      rcases h _ (mem_nodes_node.mpr (.inl rfl)) with hcontiguous | ⟨hhollow, hdisplaced⟩
      · exact hcontiguous.tiles.tokensLie hchildren
      · obtain ⟨first, second, third, fourth, hnode, htiles, -⟩ := hdisplaced
        obtain ⟨_, _, code, _, -, hshape, hcode, hempty⟩ := hhollow
        obtain rfl : children = [first, second, third, fourth] := hnode
        obtain rfl : code = third := (List.cons.inj (List.cons.inj (List.cons.inj hshape).2).2).1.symm
        have hnone : code.tokens = [] := by rw [← tokens_children hcode, hempty, tokensAll_nil]
        have htokens : tokensAll [first, second, code, fourth] = tokensAll [first, second, fourth] := by
          simp only [tokensAll_cons, hnone, List.nil_append]
        have hsublist : [first, second, fourth].Sublist [first, second, code, fourth] :=
          .cons_cons first (.cons_cons second (.cons code (.refl _)))
        rw [htokens]
        exact htiles.tokensLie fun c hc => hchildren c (hsublist.mem hc)

section Spanning

variable {kind : NodeKind} {children : List Tree} {place : Span} {label : Option Label}

/-- A node covers the stretch that its children tile; without children, it stands at a place. -/
theorem Tiles.spanning (h : Tiles l children m) (hplace : children = [] → place.start.offset = l) :
    Tiles l [Tree.spanning kind children place label] m := by
  have hle := h.le
  cases children with
  | nil => exact ⟨hplace rfl, by rw [← show l = m from h, ← hplace rfl]; rfl⟩
  | cons first rest =>
      obtain ⟨last, hlast⟩ : ∃ last, (first :: rest).getLast? = some last :=
        ⟨_, List.getLast?_eq_some_getLast (List.cons_ne_nil first rest)⟩
      have hstop := h.last last hlast
      have hstart := h.1
      have hspan : (Tree.spanning kind (first :: rest) place label).span =
          ⟨first.span.path, first.span.start, last.span.stop - first.span.start.offset⟩ := by
        rw [Tree.spanning, span, spanOf, hlast]
        rfl
      rw [tiles_single, hspan]
      refine ⟨hstart, ?_⟩
      show first.span.start.offset + (last.span.stop - first.span.start.offset) = m
      omega

/-- A node over trees that tile a stretch is contiguous. -/
theorem Tiles.isContiguous_spanning (h : Tiles l children m)
    (hplace : children = [] → place.start.offset = l) :
    (Tree.spanning kind children place label).IsContiguous := by
  have hnode : Tiles l [Tree.spanning kind children place label] m := h.spanning hplace
  obtain ⟨hstart, hstop⟩ := tiles_single.mp hnode
  exact {
    first := fun c hc => (h.head c hc).trans hstart.symm
    adjacent := h.isChain
    last := fun c hc => (h.last c hc).trans hstop.symm
    empty := by
      rintro (rfl : children = [])
      rfl }

end Spanning

section Displaced

variable {first second third fourth : Tree} {kind : NodeKind} {place : Span} {label : Option Label}

/-- A node is as long as its first and its last child say, whatever stands between them. -/
theorem Tiles.spanning_around (h : Tiles l [first, second, fourth] m) :
    Tiles l [Tree.spanning kind [first, second, third, fourth] place label] m := by
  have hnode : Tiles l [Tree.spanning kind [first, second, fourth] place label] m := h.spanning nofun
  exact hnode

theorem Tiles.isDisplaced_spanning (h : Tiles l [first, second, fourth] m) (hfourth : 0 < fourth.span.length)
    (hlength : third.span.length = 0) (hstart : third.span.start.offset = m) :
    (Tree.spanning kind [first, second, third, fourth] place label).IsDisplaced := by
  have hnode : Tiles l [Tree.spanning kind [first, second, third, fourth] place label] m := h.spanning_around
  obtain ⟨rfl, rfl⟩ := tiles_single.mp hnode
  exact ⟨first, second, third, fourth, rfl, h, hfourth, hlength, hstart⟩

end Displaced

/-- A list of trees that tile a stretch, with something that holds of all nodes in them. -/
structure Lies (Q : Tree → Prop) (l : Nat) (trees : List Tree) (m : Nat) : Prop where
  tiles : Tiles l trees m
  nodes : ∀ n ∈ nodesAll trees, Q n

variable {Q : Tree → Prop}

theorem lies_nil : Lies Q l [] l := ⟨rfl, fun _ h => absurd h List.not_mem_nil⟩

theorem lies_append : Lies Q l (trees ++ more) k ↔ ∃ m, Lies Q l trees m ∧ Lies Q m more k := by
  constructor
  · rintro ⟨htiles, hnodes⟩
    obtain ⟨m, htrees, hmore⟩ := tiles_append.mp htiles
    rw [nodesAll_append, List.forall_mem_append] at hnodes
    exact ⟨m, ⟨htrees, hnodes.1⟩, hmore, hnodes.2⟩
  · rintro ⟨m, htrees, hmore⟩
    refine ⟨htrees.tiles.append hmore.tiles, ?_⟩
    rw [nodesAll_append, List.forall_mem_append]
    exact ⟨htrees.nodes, hmore.nodes⟩

theorem Lies.append (h : Lies Q l trees m) (h' : Lies Q m more k) : Lies Q l (trees ++ more) k :=
  lies_append.mpr ⟨m, h, h'⟩

theorem Lies.cons (h : Lies Q l [t] m) (h' : Lies Q m trees k) : Lies Q l (t :: trees) k :=
  Lies.append h h'

theorem lies_single_node {kind : NodeKind} {span : Span} {label : Option Label} {children : List Tree}
    (htiles : Tiles l [node kind span label children] m) (hnode : Q (node kind span label children))
    (hchildren : ∀ n ∈ nodesAll children, Q n) : Lies Q l [node kind span label children] m := by
  refine ⟨htiles, fun n hn => ?_⟩
  obtain ⟨u, hu, hn⟩ := mem_nodesAll.mp hn
  obtain rfl := List.mem_singleton.mp hu
  rcases mem_nodes_node.mp hn with rfl | hbelow
  · exact hnode
  · exact hchildren n (mem_nodesAll.mpr hbelow)

/-- A node over trees that lie one behind the other lies where they do. -/
theorem Lies.spanning {kind : NodeKind} {children : List Tree} {place : Span} {label : Option Label}
    (h : Lies Q l children m) (hplace : children = [] → place.start.offset = l)
    (hnode : Q (Tree.spanning kind children place label)) :
    Lies Q l [Tree.spanning kind children place label] m :=
  lies_single_node (h.tiles.spanning hplace) hnode h.nodes

theorem TokensLie.lies {tokens : List Token} (h : TokensLie l tokens m) :
    Lies Q l (tokens.map .token) m := by
  refine ⟨h, fun n hn => ?_⟩
  obtain ⟨u, hu, hn⟩ := mem_nodesAll.mp hn
  obtain ⟨t, -, rfl⟩ := List.mem_map.mp hu
  rw [nodes_token] at hn
  exact absurd hn List.not_mem_nil

end RazorLang.Tree
