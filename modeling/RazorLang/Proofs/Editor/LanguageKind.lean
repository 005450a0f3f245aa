import RazorLang.Proofs.Editor.Formatting
import RazorLang.Proofs.Tree.Contiguity

/-!
# Languages and the HTML

Which language a place of a document is in is told from the tokens on its two sides. Main statement:
`Engine.languageAt_agrees` — within a document, a place is in HTML exactly if the byte behind it is in a
mapping of the HTML and no code of the author's own ends there, where it is in C#; and the end of the document
is in the language of the last token that has characters.

An editor need not read all tokens for that (`Tree.lookUp`): it goes down the tree, passes by the nodes that do
not touch the place, and stops at the token behind it. It finds the same, since the tokens of a node lie where
the node does (`Tree.visit_eq`) and follow one another (`Tree.foldl_see`).
-/

namespace RazorLang

open RazorLang.Tree Projection Text

/-- The author's own C# is C#. -/
theorem LanguageKind.ofNode_of_isAuthored {k : NodeKind} (h : isAuthored k = true) : ofNode k = .csharp := by
  cases k with
  | statementCode => rfl
  | expressionCode => rfl
  | _ => exact nomatch h

namespace Tree

variable {i : Nat} {owner : NodeKind} {t : Tree} {e : NodeKind × Token}

/-- A token that has characters, and that is C# of the author's own, ends at an offset. -/
def EndsCode (t : Tree) (i : Nat) : Prop :=
  ∃ e ∈ t.written, LanguageKind.isAuthored e.1 = true ∧ e.2.span.stop = i

instance : Decidable (t.EndsCode i) :=
  inferInstanceAs (Decidable (∃ e ∈ t.written, _))

/-! ## Looking a place up -/

/-- What is known of the two sides of an offset: the kinds of the nodes that hold the token that ends there and
    the token that the offset lies in. -/
structure Sides where
  before : Option NodeKind := none
  owner : Option NodeKind := none

namespace Sides

/-- The language between two sides. -/
def language (s : Sides) : LanguageKind :=
  match s.before, s.owner with
  | some before, owner => if LanguageKind.isAuthored before then .csharp else .ofNode (owner.getD before)
  | none, some owner => .ofNode owner
  | none, none => .html

/-- Takes a token into account that a node of a kind holds. -/
def see (i : Nat) (s : Sides) (e : NodeKind × Token) : Sides :=
  if s.owner.isSome || e.2.content.isEmpty then s
  else if e.2.span.contains i then { s with owner := some e.1 }
  else if e.2.span.stop == i then { s with before := some e.1 }
  else s

end Sides

mutual

/-- Looks at a tree that a node of a kind holds, unless it does not touch the offset. -/
def visit (i : Nat) (owner : NodeKind) (s : Sides) : Tree → Sides
  | token t => s.see i (owner, t)
  | node kind span _ children => if span.touches i then visitAll i kind s children else s

/-- Looks at the trees that a node of a kind holds, up to the one that the offset lies in. -/
def visitAll (i : Nat) (owner : NodeKind) (s : Sides) : List Tree → Sides
  | [] => s
  | t :: rest => if s.owner.isSome then s else visitAll i owner (visit i owner s t) rest

end

/-- What is found on the two sides of an offset of a document. -/
def lookUp (t : Tree) (i : Nat) : Sides :=
  match t with
  | token t => .see i {} (.document, t)
  | node kind _ _ children => visitAll i kind {} children

/-- The tokens of each node of a tree lie where the node does. -/
def IsSpanned (t : Tree) : Prop :=
  ∀ n ∈ t.nodes, ∀ u ∈ n.tokens, n.span.start.offset ≤ u.span.start.offset ∧ u.span.stop ≤ n.span.stop

theorem Sides.see_of_isSome {s : Sides} (h : s.owner.isSome = true) (e : NodeKind × Token) : s.see i e = s := by
  rw [see, h, Bool.true_or]
  rfl

theorem Sides.see_of_isEmpty (s : Sides) (h : e.2.content.isEmpty = true) : s.see i e = s := by
  rw [see, h, Bool.or_true]
  rfl

theorem Sides.see_of_not_isEmpty (before : Option NodeKind) (h : ¬ e.2.content.isEmpty = true) :
    see i ⟨before, none⟩ e =
      if e.2.span.contains i then ⟨before, some e.1⟩
      else if e.2.span.stop == i then ⟨some e.1, none⟩ else ⟨before, none⟩ := by
  rw [see, if_neg (by simpa using h)]

theorem Sides.see_of_passed (s : Sides) (hcontains : e.2.span.contains i ≠ true) (hstop : e.2.span.stop ≠ i) :
    s.see i e = s := by
  rw [see, if_neg hcontains, if_neg (mt beq_iff_eq.mp hstop), ite_self]

/-- Nothing more is looked at behind the token that the offset lies in. -/
theorem foldl_see_of_isSome {s : Sides} (h : s.owner.isSome = true) (es : List (NodeKind × Token)) :
    es.foldl (Sides.see i) s = s := by
  induction es with
  | nil => rfl
  | cons e es ih => rw [List.foldl_cons, Sides.see_of_isSome h, ih]

theorem foldl_see_of_passed {es : List (NodeKind × Token)} (s : Sides)
    (h : ∀ e ∈ es, e.2.span.contains i ≠ true ∧ e.2.span.stop ≠ i) : es.foldl (Sides.see i) s = s := by
  induction es with
  | nil => rfl
  | cons e es ih =>
      obtain ⟨hcontains, hstop⟩ := h e List.mem_cons_self
      rw [List.foldl_cons, s.see_of_passed hcontains hstop]
      exact ih fun f hf => h f (List.mem_cons_of_mem e hf)

theorem visitAll_eq {trees : List Tree}
    (h : ∀ t ∈ trees, ∀ s, visit i owner s t = (t.owned owner).foldl (Sides.see i) s) (s : Sides) :
    visitAll i owner s trees = (ownedAll owner trees).foldl (Sides.see i) s := by
  induction trees generalizing s with
  | nil => rfl
  | cons t trees ih =>
      rw [visitAll, ownedAll]
      split
      · next hfound => exact (foldl_see_of_isSome hfound _).symm
      · rw [ih fun u hu => h u (List.mem_cons_of_mem t hu), h t List.mem_cons_self, List.foldl_append]

/-- Passing by the nodes that do not touch the offset leaves out no token on its sides. -/
theorem visit_eq (h : t.IsSpanned) (owner : NodeKind) (s : Sides) :
    visit i owner s t = (t.owned owner).foldl (Sides.see i) s := by
  induction t using Tree.induct generalizing owner s with
  | token t => rfl
  | node kind span label children ih =>
      have hchildren (u : Tree) (hu : u ∈ children) : u.IsSpanned := fun n hn =>
        h n (mem_nodes_node.mpr (Or.inr ⟨u, hu, hn⟩))
      rw [visit, owned]
      split
      · exact visitAll_eq (fun u hu s => ih u hu (hchildren u hu) kind s) s
      · next haway =>
          -- a token that contained the offset or ended there would make the node touch it
          refine (foldl_see_of_passed s fun e he => ?_).symm
          have htoken : e.2 ∈ (node kind span label children).tokens := by
            rw [← map_snd_owned kind, owned]
            exact List.mem_map_of_mem he
          obtain ⟨hstart, hstop⟩ := h _ (mem_nodes_node.mpr (Or.inl rfl)) e.2 htoken
          have haway : ¬ (span.start.offset ≤ i ∧ i ≤ span.stop) := mt Span.touches_eq_true.mpr haway
          change span.start.offset ≤ _ at hstart
          change _ ≤ span.stop at hstop
          constructor
          · intro hcontains
            have := Span.contains_eq_true.mp hcontains
            omega
          · intro hend
            have : e.2.span.start.offset ≤ e.2.span.stop := Nat.le_add_right _ _
            omega

/-- Tokens that start behind one that an offset lies in do not end at the offset. -/
theorem find?_stop_eq_none {es : List (NodeKind × Token)} {p : NodeKind × Token → Bool}
    (hcontains : e.2.span.contains i = true) (h : ∀ f ∈ es, e.2.span.stop ≤ f.2.span.start.offset) :
    (es.filter p).reverse.find? (fun f => f.2.span.stop == i) = none := by
  refine List.find?_eq_none.mpr fun f hf => ?_
  have hlt := (Span.contains_eq_true.mp hcontains).2
  have hle := h f (List.mem_of_mem_filter (List.mem_reverse.mp hf))
  have hstop : f.2.span.start.offset ≤ f.2.span.stop := Nat.le_add_right _ _
  rw [beq_iff_eq]
  omega

/-- Of tokens that follow one another, the ones on the two sides of an offset are found by looking at them in
    their order. -/
theorem foldl_see {es : List (NodeKind × Token)}
    (hapart : es.Pairwise fun e f => e.2.span.stop ≤ f.2.span.start.offset) (before : Option NodeKind) :
    es.foldl (Sides.see i) ⟨before, none⟩ =
      ⟨(((es.filter fun e => !e.2.content.isEmpty).reverse.find? fun e => e.2.span.stop == i).map Prod.fst).or
          before,
        ((es.filter fun e => !e.2.content.isEmpty).find? fun e => e.2.span.contains i).map Prod.fst⟩ := by
  -- a token that ends at the offset takes the place of an earlier one, until one contains the offset
  induction es generalizing before with
  | nil => rfl
  | cons e es ih =>
      obtain ⟨hhead, htail⟩ := List.pairwise_cons.mp hapart
      rw [List.foldl_cons]
      by_cases hempty : e.2.content.isEmpty = true
      · rw [Sides.see_of_isEmpty _ hempty, List.filter_cons_of_neg (by simp [hempty])]
        exact ih htail before
      · rw [Sides.see_of_not_isEmpty before hempty, List.filter_cons_of_pos (by simpa using hempty),
          List.reverse_cons, List.find?_append, List.find?_singleton, List.find?_cons]
        by_cases hcontains : e.2.span.contains i = true
        · have hstop : ¬ (e.2.span.stop == i) = true := by
            rw [beq_iff_eq]
            exact Nat.ne_of_gt (Span.contains_eq_true.mp hcontains).2
          rw [if_pos hcontains, foldl_see_of_isSome rfl, find?_stop_eq_none hcontains hhead, hcontains,
            if_neg hstop]
          rfl
        · rw [if_neg hcontains, Bool.eq_false_iff.mpr hcontains]
          by_cases hstop : (e.2.span.stop == i) = true
          · rw [if_pos hstop, if_pos hstop, ih htail]
            cases (es.filter fun e => !e.2.content.isEmpty).reverse.find? fun e => e.2.span.stop == i <;> rfl
          · rw [if_neg hstop, if_neg hstop, ih htail, Option.or_none]

theorem languageAt_eq (t : Tree) (i : Nat) :
    t.languageAt i = Sides.language ⟨t.ownerBefore? i, t.ownerAt? i⟩ := by
  rw [languageAt]
  cases t.ownerBefore? i <;> rfl

/-- What is looked up at an offset is what reading all tokens tells. -/
theorem lookUp_eq (h : t.IsSpanned)
    (hapart : (t.owned .document).Pairwise fun e f => e.2.span.stop ≤ f.2.span.start.offset) (i : Nat) :
    t.lookUp i = ⟨t.ownerBefore? i, t.ownerAt? i⟩ := by
  have hall : t.lookUp i = (t.owned .document).foldl (Sides.see i) ⟨none, none⟩ := by
    cases t with
    | token t => rfl
    | node kind span label children =>
        refine visitAll_eq (fun u hu s => visit_eq (fun n hn => ?_) kind s) {}
        exact h n (mem_nodes_node.mpr (Or.inr ⟨u, hu, hn⟩))
  rw [hall, foldl_see hapart, Option.or_none]
  rfl

/-! ## Where the tokens of a node lie -/

theorem Tiles.of_mem {l m : Nat} {trees : List Tree} (h : Tiles l trees m) (ht : t ∈ trees) :
    l ≤ t.span.start.offset ∧ t.span.stop ≤ m := by
  obtain ⟨before, after, rfl⟩ := List.append_of_mem ht
  obtain ⟨k, hbefore, rfl, hafter⟩ := tiles_append.mp h
  exact ⟨hbefore.le, hafter.le⟩

end Tree

namespace ParsedDocument

variable {p : ParsedDocument} {e f : NodeKind × Token} {i : Nat}

theorem isSpanned_parse (kind : FileKind) (d : Source) : (parse kind d).root.IsSpanned :=
  fun _ hn _ hu => Tiles.of_mem (tokensLie_of_mem_nodes hn) (List.mem_map_of_mem hu)

theorem isSpanned_bindTree {c : TagHelperScope} {t : Tree} (h : t.IsSpanned) (parent : Option Text) :
    (c.bindTree parent t).IsSpanned := by
  intro n hn u hu
  obtain ⟨m, hm, parent', rfl⟩ := TagHelperScope.mem_nodes_bindTree hn
  rw [TagHelperScope.tokens_bindTree] at hu
  rw [TagHelperScope.span_bindTree]
  exact h m hm u hu

/-! ## The token that ends at an offset -/

/-- No two tokens that have characters end at the same offset. -/
theorem IsRun.eq_of_stop (h : p.IsRun) (he : e ∈ p.root.written) (hf : f ∈ p.root.written)
    (hei : e.2.span.stop = i) (hfi : f.2.span.stop = i) : e = f := by
  obtain ⟨he, hestop, hepos⟩ := h.of_mem_written he
  obtain ⟨hf, hfstop, hfpos⟩ := h.of_mem_written hf
  have hlast : e.2.span.contains (i - 1) = true := Span.contains_eq_true.mpr (by omega)
  exact h.eq_of_contains he hf hlast (Span.contains_eq_true.mpr (by omega))

theorem IsRun.ownerBefore?_eq (h : p.IsRun) (he : e ∈ p.root.written) (hstop : e.2.span.stop = i) :
    p.root.ownerBefore? i = some e.1 := by
  rw [ownerBefore?]
  cases hf : p.root.written.reverse.find? fun f => f.2.span.stop == i with
  | none => exact absurd (beq_iff_eq.mpr hstop) (List.find?_eq_none.mp hf e (List.mem_reverse.mpr he))
  | some f =>
      have hmem := List.mem_reverse.mp (List.mem_of_find?_eq_some hf)
      rw [h.eq_of_stop he hmem hstop (by simpa using List.find?_some hf)]
      rfl

theorem exists_of_ownerBefore? {k : NodeKind} (h : p.root.ownerBefore? i = some k) :
    ∃ e ∈ p.root.written, e.1 = k ∧ e.2.span.stop = i := by
  obtain ⟨e, he, hk⟩ := Option.map_eq_some_iff.mp h
  exact ⟨e, List.mem_reverse.mp (List.mem_of_find?_eq_some he), hk, by simpa using List.find?_some he⟩

/-- Where code of the author's own ends, it is C#. -/
theorem IsRun.languageAt_of_endsCode (h : p.IsRun) (hends : p.root.EndsCode i) :
    p.root.languageAt i = .csharp := by
  obtain ⟨e, he, hauthored, hstop⟩ := hends
  rw [languageAt_eq, h.ownerBefore?_eq he hstop, Sides.language]
  exact if_pos hauthored

/-- Elsewhere, the language is that of the byte behind the place. -/
theorem IsRun.languageAt_of_contains (h : p.IsRun) (hends : ¬ p.root.EndsCode i)
    (he : e ∈ ownedTokens p.root) (hcontains : e.2.span.contains i = true) :
    p.root.languageAt i = .ofNode e.1 := by
  rw [languageAt_eq, h.ownerAt?_eq he hcontains]
  cases hbefore : p.root.ownerBefore? i with
  | none => rfl
  | some k =>
      obtain ⟨f, hf, rfl, hstop⟩ := exists_of_ownerBefore? hbefore
      have hplain : ¬ LanguageKind.isAuthored f.1 = true := fun hauthored =>
        hends ⟨f, hf, hauthored, hstop⟩
      rw [Sides.language]
      exact if_neg hplain

/-! ## The end of a document -/

theorem IsRun.ownerAt?_size (h : p.IsRun) : p.root.ownerAt? p.source.size = none := by
  refine Option.map_eq_none_iff.mpr (List.find?_eq_none.mpr fun e he hcontains => ?_)
  have hlt := (Span.contains_eq_true.mp hcontains).2
  exact absurd (h.stop_le (List.mem_of_mem_filter he)) (Nat.not_le_of_lt hlt)

/-- The last token that has characters ends where the source does. -/
theorem IsRun.exists_getLast?_written (h : p.IsRun) (hpos : 0 < p.source.size) :
    ∃ e, p.root.written.getLast? = some e ∧ e ∈ p.root.written ∧ e.2.span.stop = p.source.size := by
  obtain ⟨e, he, hcontains⟩ := h.exists_contains (i := p.source.size - 1) (by omega)
  have hwritten := h.mem_written he hcontains
  have hlast := (Span.contains_eq_true.mp hcontains).2
  -- it is the last that has characters, since another would start behind the last byte
  obtain ⟨before, after, hsplit⟩ := List.append_of_mem hwritten
  refine ⟨e, ?_, hwritten, Nat.le_antisymm (h.stop_le he) (by omega)⟩
  cases after with
  | nil => rw [hsplit, List.getLast?_append_cons, List.getLast?_singleton]
  | cons f after =>
      have hpairwise := h.pairwise.filter fun e => !e.2.content.isEmpty
      rw [show (ownedTokens p.root).filter _ = p.root.written from rfl, hsplit] at hpairwise
      have hle : e.2.span.stop ≤ f.2.span.start.offset :=
        (List.pairwise_cons.mp (List.pairwise_append.mp hpairwise).2.1).1 f List.mem_cons_self
      have hf : f ∈ p.root.written := by
        rw [hsplit]
        exact List.mem_append_right before (List.mem_cons_of_mem e List.mem_cons_self)
      obtain ⟨hf, hstop, hpos⟩ := h.of_mem_written hf
      have := h.stop_le hf
      omega

theorem IsRun.languageAt_size (h : p.IsRun) :
    (p.source.text = [] → p.root.languageAt p.source.size = .html) ∧
      (p.source.text ≠ [] → ∃ e, p.root.written.getLast? = some e ∧
        p.root.languageAt p.source.size = .ofNode e.1) := by
  rw [languageAt_eq, h.ownerAt?_size]
  constructor
  · intro hempty
    cases hbefore : p.root.ownerBefore? p.source.size with
    | none => rfl
    | some k =>
        obtain ⟨f, hf, -, hstop⟩ := exists_of_ownerBefore? hbefore
        obtain ⟨-, hlength, hpos⟩ := h.of_mem_written hf
        rw [Source.size, hempty, size_nil] at hstop
        omega
  · intro hne
    obtain ⟨e, hlast, hwritten, hstop⟩ := h.exists_getLast?_written (size_pos_of_ne_nil hne)
    refine ⟨e, hlast, ?_⟩
    rw [h.ownerBefore?_eq hwritten hstop, Sides.language]
    by_cases hauthored : LanguageKind.isAuthored e.1 = true
    · exact (if_pos hauthored).trans (LanguageKind.ofNode_of_isAuthored hauthored).symm
    · exact if_neg hauthored

end ParsedDocument

namespace Engine

variable {e : Engine} {mayGoOn : Phase → Bool} {r : Request} {c : Compilation} {i : Nat}

theorem exists_mapping_iff (h : e.compileWhile mayGoOn r = .ok c) :
    (∃ m ∈ c.html.mappings, m.source.contains i = true) ↔ InMarkup c.document.root i := by
  rw [ParsedDocument.html_compileWhile h, (ParsedDocument.isMaskedCopy_parse r.fileKind r.source).covers,
    inMarkup_iff, inMarkup_iff, ParsedDocument.marks_compileWhile h]

theorem lookUp_compileWhile (h : e.compileWhile mayGoOn r = .ok c) (i : Nat) :
    c.document.root.lookUp i = ⟨c.document.root.ownerBefore? i, c.document.root.ownerAt? i⟩ := by
  have hrun := (ParsedDocument.isRun_compileWhile h).1
  obtain ⟨-, -, -, hdocument, -⟩ := compileWhile_eq_ok h
  have hspanned : c.document.root.IsSpanned := by
    rw [hdocument]
    exact ParsedDocument.isSpanned_bindTree (ParsedDocument.isSpanned_parse r.fileKind r.source) none
  exact lookUp_eq hspanned hrun.pairwise i

/-- A place in a compiled document is in HTML if and only if the byte behind it is in a mapping of the HTML
    and no code of the author's own ends there; where such code ends, it is in C#. The end of the document is
    in the language of its last token that has characters, and in HTML if there is none. Looking the place up
    in the tree tells the same. -/
theorem languageAt_agrees (h : e.compileWhile mayGoOn r = .ok c) :
    (∀ i < r.source.size, (CodeDocument.compiled c).languageAt i = .html ↔
      (∃ m ∈ c.html.mappings, m.source.contains i = true) ∧ ¬ c.document.root.EndsCode i) ∧
    (∀ i, c.document.root.EndsCode i → (CodeDocument.compiled c).languageAt i = .csharp) ∧
    (r.source.text = [] → (CodeDocument.compiled c).languageAt r.source.size = .html) ∧
    (r.source.text ≠ [] → ∃ last, c.document.root.written.getLast? = some last ∧
      (CodeDocument.compiled c).languageAt r.source.size = .ofNode last.1) ∧
    ∀ i, (c.document.root.lookUp i).language = (CodeDocument.compiled c).languageAt i := by
  have hrun := (ParsedDocument.isRun_compileWhile h).1
  have hsource : c.document.source = r.source := by
    obtain ⟨-, -, -, hdocument, -⟩ := compileWhile_eq_ok h
    rw [hdocument]
    rfl
  have hend := hrun.languageAt_size
  rw [hsource] at hend
  refine ⟨fun i hi => ?_, fun i hends => hrun.languageAt_of_endsCode hends, hend.1, hend.2, fun i => ?_⟩
  · rw [exists_mapping_iff h]
    obtain ⟨t, ht, hcontains⟩ := hrun.exists_contains (hsource ▸ hi)
    constructor
    · intro hhtml
      refine ⟨⟨t, ht, hrun.isMarkup_of_languageAt hhtml ht hcontains, hcontains⟩, fun hends => ?_⟩
      exact nomatch hhtml.symm.trans (hrun.languageAt_of_endsCode hends)
    · rintro ⟨⟨u, hu, hmarkup, hcontains'⟩, hends⟩
      refine (hrun.languageAt_of_contains hends hu hcontains').trans ?_
      exact LanguageKind.ofNode_eq_html.mpr hmarkup
  · rw [lookUp_compileWhile h, ← languageAt_eq]
    rfl

/-- Behind the expression of a page one goes on typing C#, though the byte there is markup. -/
theorem languageAt_agrees_expression :
    ∃ c, bare.compileWhile (fun _ => true) ⟨.anonymous "<p>@x</p>", .legacy, []⟩ = .ok c ∧
      (∃ m ∈ c.html.mappings, m.source.contains 5 = true) ∧ c.document.root.EndsCode 5 ∧
      (CodeDocument.compiled c).languageAt 5 = .csharp ∧ (CodeDocument.compiled c).languageAt 6 = .html ∧
      (c.document.root.lookUp 5).language = .csharp := by
  have hfacts : ∃ c, bare.compileWhile (fun _ => true) ⟨.anonymous "<p>@x</p>", .legacy, []⟩ = .ok c ∧
      (∃ m ∈ c.html.mappings, m.source.contains 5 = true) ∧ c.document.root.EndsCode 5 ∧
      (∃ m ∈ c.html.mappings, m.source.contains 6 = true) ∧ ¬ c.document.root.EndsCode 6 :=
    exists_ok_of_decide (by decide +kernel)
  obtain ⟨c, hc, hmapped, hends, hmapped', hplain⟩ := hfacts
  obtain ⟨hhtml, hcsharp, -, -, hlookUp⟩ := languageAt_agrees hc
  exact ⟨c, hc, hmapped, hends, hcsharp 5 hends, (hhtml 6 (by decide)).mpr ⟨hmapped', hplain⟩,
    (hlookUp 5).trans (hcsharp 5 hends)⟩

end Engine

end RazorLang
