import RazorLang.Proofs.Text.Nesting
import RazorLang.Proofs.Tree.Tags

/-!
# Delimiters

Tokens of one kind open something, and tokens of another kind close it (`Nests`). A closed explicit
expression and a closed block end with the first delimiter that closes nothing before it, so that what is
before it is `Balanced`; a construct that is left open has no such delimiter (`LeavesOpen`).

Main statement: `EndsOpen.split` — where the last block is left open, each other block comes before its
brace.
-/

namespace RazorLang.Tree

/-! ## Tokens that open and close -/

/-- Every closing token has an opening one before it, and `n` opening ones are left without a closing one. -/
abbrev Nests (opener closer : TokenKind) (ts : List Token) (n : Nat) : Prop :=
  NestsBy Token.kind opener closer ts n

/-- Opening and closing tokens match. -/
abbrev Balanced (opener closer : TokenKind) (ts : List Token) : Prop := Nests opener closer ts 0

/-- Among some tokens, one opens something that none behind it closes. -/
def LeavesTokenOpen (opener closer : TokenKind) (ts : List Token) : Prop :=
  ∃ before t after n, ts = before ++ t :: after ∧ t.kind = opener ∧ Nests opener closer after n

/-! ## Nodes -/

/-- The node of a delimiter: one token of a kind. -/
def IsDelimiter (kind : TokenKind) (t : Tree) : Prop :=
  t.kind? = some .metaCode ∧ ∃ u, t.children = [token u] ∧ u.kind = kind

/-- The node of a transition: one token, which is not empty. -/
def IsTransition (t : Tree) : Prop :=
  t.kind? = some .codeTransition ∧ ∃ u, t.children = [token u] ∧ u.kind = .transition ∧ u.content ≠ []

/-- The first of some trees is a node of a kind that begins with a token. -/
def BeginsWith (kind : NodeKind) (trees : List Tree) : Prop :=
  ∃ c ∈ trees.head?, c.kind? = some kind ∧ ∃ u, c.children.head? = some (token u)

/-- The tokens directly in the pieces of statements among some trees. -/
def statementTokensAll (trees : List Tree) : List Token :=
  (trees.filter fun t => t.kind? == some .statementCode).flatMap ownTokens

/-- The tokens directly in the pieces of statements of a block. -/
def statementTokens (t : Tree) : List Token := statementTokensAll t.children

theorem mem_tokens_of_mem_statementTokens {n : Tree} {u : Token} (h : u ∈ n.statementTokens) : u ∈ n.tokens := by
  obtain ⟨c, hc, hu⟩ := List.mem_flatMap.mp h
  exact mem_tokens_of_mem_children (List.mem_filter.mp hc).1 (mem_tokens_of_mem_ownTokens hu)

/-- An explicit expression with its closing parenthesis. -/
def IsClosedExpression (n : Tree) : Prop :=
  ∃ transition opened code closed, n.children = [transition, opened, code, closed] ∧
    transition.IsTransition ∧ code.kind? = some .expressionCode ∧ closed.IsDelimiter .closeParen ∧
    Balanced .openParen .closeParen code.ownTokens

/-- An explicit expression without one. -/
def IsOpenExpression (n : Tree) (transition : Tree) : Prop :=
  n.kind? = some .explicitExpression ∧ transition.IsTransition ∧
    ∃ opened code, n.children = [transition, opened, code] ∧ code.kind? = some .expressionCode

/-- The bodies that can have a block of statements: that of `@{ }` and that of a directive. -/
def isBody (n : Tree) : Bool := n.kind? == some .statementBody || n.kind? == some .directiveBody

/-- Behind each block of statements comes the first brace that closes nothing in it. -/
def ClosesBlocks : List Tree → Prop
  | [] => True
  | t :: rest =>
    (t.kind? = some .codeBlock →
      Balanced .openBrace .closeBrace t.statementTokens ∧
        ∃ closed ∈ rest.head?, IsDelimiter .closeBrace closed) ∧
      ClosesBlocks rest

/-- The last of some trees is a block of statements. -/
def EndsOpen (trees : List Tree) : Prop :=
  ∃ before block, trees = before ++ [block] ∧ block.kind? = some .codeBlock ∧ ClosesBlocks before

/-- A node in which a block of statements is left open: a body that ends with the block, or a statement that
    a keyword starts. -/
def LeavesOpen (n : Tree) : Prop :=
  (n.isBody = true ∧ EndsOpen n.children) ∨
    (n.kind? = some .codeBlock ∧ LeavesTokenOpen .openBrace .closeBrace n.statementTokens)

/-- A node in which a block of statements is left open has tokens. -/
theorem LeavesOpen.tokens_ne_nil {n : Tree} (h : n.LeavesOpen)
    (hbegins : n.isBody = true → BeginsWith .metaCode n.children) : n.tokens ≠ [] := by
  rcases h with ⟨hbody, -⟩ | ⟨-, before, t, after, m, htokens, -⟩
  · obtain ⟨c, hc, -, u, hu⟩ := hbegins hbody
    have hfirst : u ∈ c.tokens := mem_tokens_of_token_mem (List.mem_of_head? hu)
    exact List.ne_nil_of_mem (mem_tokens_of_mem_children (List.mem_of_head? hc) hfirst)
  · have hopen : t ∈ n.statementTokens := htokens ▸ List.mem_append_right _ (List.mem_cons_self ..)
    exact List.ne_nil_of_mem (mem_tokens_of_mem_statementTokens hopen)

/-- There is no block of statements among some trees. -/
def BlockFree (trees : List Tree) : Prop := ∀ t ∈ trees, t.kind? ≠ some .codeBlock

variable {trees more : List Tree} {t : Tree}

theorem BlockFree.closesBlocks (h : BlockFree trees) : ClosesBlocks trees := by
  induction trees with
  | nil => trivial
  | cons t trees ih =>
      refine ⟨fun hblock => absurd hblock (h t (List.mem_cons_self ..)), ih fun u hu => ?_⟩
      exact h u (List.mem_cons_of_mem t hu)

theorem ClosesBlocks.append (h : ClosesBlocks trees) (h' : ClosesBlocks more) :
    ClosesBlocks (trees ++ more) := by
  induction trees with
  | nil => exact h'
  | cons t trees ih =>
      obtain ⟨hfirst, hrest⟩ := h
      refine ⟨fun hblock => ?_, ih hrest⟩
      obtain ⟨hbalanced, closed, hclosed, hbrace⟩ := hfirst hblock
      exact ⟨hbalanced, closed, List.mem_head?_append_of_mem_head? hclosed, hbrace⟩

theorem BeginsWith.append {kind : NodeKind} (h : BeginsWith kind trees) (more : List Tree) :
    BeginsWith kind (trees ++ more) := by
  obtain ⟨c, hc, hbegins⟩ := h
  exact ⟨c, List.mem_head?_append_of_mem_head? hc, hbegins⟩

/-- A block with its brace. -/
theorem closesBlocks_block {closed : Tree} (hbalanced : Balanced .openBrace .closeBrace t.statementTokens)
    (hclosed : closed.IsDelimiter .closeBrace) : ClosesBlocks [t, closed] := by
  refine ⟨fun _ => ⟨hbalanced, closed, rfl, hclosed⟩, fun hblock => ?_, trivial⟩
  exact nomatch hclosed.1.symm.trans hblock

/-- Each block among trees that close their blocks comes before its brace. -/
theorem ClosesBlocks.split {before after : List Tree} (h : ClosesBlocks (before ++ t :: after))
    (ht : t.kind? = some .codeBlock) :
    Balanced .openBrace .closeBrace t.statementTokens ∧ ∃ closed ∈ after.head?, IsDelimiter .closeBrace closed := by
  induction before with
  | nil => exact h.1 ht
  | cons u before ih => exact ih h.2

/-- Among trees that end with an open block, each other block comes before its brace. -/
theorem EndsOpen.split {before after : List Tree} (h : EndsOpen (before ++ t :: after))
    (ht : t.kind? = some .codeBlock) :
    after = [] ∨ (Balanced .openBrace .closeBrace t.statementTokens ∧
      ∃ closed ∈ after.head?, IsDelimiter .closeBrace closed) := by
  obtain ⟨lead, block, htrees, -, hlead⟩ := h
  rcases List.eq_nil_or_concat after with rfl | ⟨init, last, rfl⟩
  · exact Or.inl rfl
  · right
    rw [List.concat_eq_append, ← List.cons_append, ← List.append_assoc] at htrees
    obtain ⟨rfl, -⟩ := List.append_inj' htrees rfl
    obtain ⟨hbalanced, closed, hclosed, hbrace⟩ := hlead.split ht
    rw [List.concat_eq_append]
    exact ⟨hbalanced, closed, List.mem_head?_append_of_mem_head? hclosed, hbrace⟩

end RazorLang.Tree
