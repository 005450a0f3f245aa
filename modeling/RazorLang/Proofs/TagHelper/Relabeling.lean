import RazorLang.Proofs.TagHelper.Binding
import RazorLang.Proofs.Text.Splitting
import RazorLang.Proofs.Tree.Coverage

/-!
# What binding makes of each place of a tree

A place of a tree is a list of child numbers, and `Tree.descend` gives the tree that stands there and the
nodes around it. Binding is described by what it makes of each place: `TagHelperScope.Binds` says from
the parsed tree alone which binding an element gets, and `TagHelperScope.Relabels` that the bound tree has
this binding at the place, has everything else as it was, and has nothing where nothing was.

The walk hands down the name of an element, while `Binds` looks outwards for the nearest one. The two
meet in `children_bindTree`: the children of a tree are bound under the name that is found from among
them. With it each place follows from its parent's, by induction on the list (`descend_bindTree`).
-/

namespace RazorLang

/-! ## Rules -/

/-- A rule admits an element: its name is the rule's, or the rule's is a star; the enclosing element is
    the one that the rule asks for; and each attribute that the rule asks for is there. The case of
    ASCII letters counts in the name only, and there only if the name is compared ordinally. -/
structure TagRule.Admits (r : TagRule) (ordinal : Bool) (tag : Text) (attributes : List Text)
    (parent : Option Text) : Prop where
  tag : r.tag = ['*'] ∨ r.tag = tag ∨ ordinal = false ∧ Text.sameIgnoringCase r.tag tag = true
  parent : ∀ wanted ∈ r.parent, ∃ given ∈ parent, Text.sameIgnoringCase given wanted = true
  attributes :
    ∀ wanted ∈ r.attributes, ∃ given ∈ attributes, Text.sameIgnoringCase given wanted = true

/-- A tag helper admits an element if one of its rules does. -/
def TagHelper.Admits (h : TagHelper) (tag : Text) (attributes : List Text) (parent : Option Text) :
    Prop :=
  ∃ r ∈ h.rules, r.Admits h.kind.isComponent tag attributes parent

theorem TagRule.applies_iff {r : TagRule} {ordinal : Bool} {tag : Text} {attributes : List Text}
    {parent : Option Text} :
    r.applies tag attributes parent ordinal = true ↔ r.Admits ordinal tag attributes parent := by
  have htag : (r.tag == ['*'] ||
        (if ordinal then r.tag == tag else Text.sameIgnoringCase r.tag tag)) = true ↔
      (r.tag = ['*'] ∨ r.tag = tag ∨ ordinal = false ∧ Text.sameIgnoringCase r.tag tag = true) := by
    rw [Bool.or_eq_true, beq_iff_eq]
    refine or_congr_right ?_
    cases ordinal with
    | true => simp
    | false =>
        have hsame (h : r.tag = tag) : Text.sameIgnoringCase r.tag tag = true := by
          rw [h]
          exact beq_self_eq_true _
        simpa using hsame
  have hparent : (r.parent.all fun wanted => parent.any (Text.sameIgnoringCase · wanted)) = true ↔
      ∀ wanted ∈ r.parent, ∃ given ∈ parent, Text.sameIgnoringCase given wanted = true := by
    simp [Option.all_eq_true, Option.any_eq_true]
  have hattributes : (r.attributes.all fun wanted =>
        attributes.any (Text.sameIgnoringCase · wanted)) = true ↔
      ∀ wanted ∈ r.attributes, ∃ given ∈ attributes,
        Text.sameIgnoringCase given wanted = true := by
    simp
  have happlies : r.applies tag attributes parent ordinal =
      ((r.tag == ['*'] || (if ordinal then r.tag == tag else Text.sameIgnoringCase r.tag tag)) &&
        (r.parent.all fun wanted => parent.any (Text.sameIgnoringCase · wanted)) &&
        r.attributes.all fun wanted => attributes.any (Text.sameIgnoringCase · wanted)) := by
    rw [applies]
    cases r.parent with
    | none => rfl
    | some wanted => rfl
  rw [happlies, Bool.and_eq_true, Bool.and_eq_true, htag, hparent, hattributes]
  constructor
  · rintro ⟨⟨htag, hparent⟩, hattributes⟩
    exact ⟨htag, hparent, hattributes⟩
  · rintro ⟨htag, hparent, hattributes⟩
    exact ⟨⟨htag, hparent⟩, hattributes⟩

theorem TagHelper.applies_iff {h : TagHelper} {tag : Text} {attributes : List Text}
    {parent : Option Text} :
    h.applies tag attributes parent = true ↔ h.Admits tag attributes parent := by
  rw [applies, List.any_eq_true]
  exact exists_congr fun r => and_congr_right fun _ => TagRule.applies_iff

instance (h : TagHelper) (tag : Text) (attributes : List Text) (parent : Option Text) :
    Decidable (h.Admits tag attributes parent) :=
  decidable_of_iff _ TagHelper.applies_iff

/-! ## Places -/

namespace Tree

/-- The start tag of an element: the first node in it, if that is one. -/
def openingTag? (t : Tree) : Option Tree :=
  t.childNodes.head?.filter fun tag => t.kind? = some .element ∧ tag.kind? = some .startTag

/-- The name of the nearest of some nodes that is an element with a start tag. -/
def enclosingName? (above : List Tree) : Option Text :=
  (above.findSome? openingTag?).map fun tag => (startTagNames tag).1

/-- The tree that a list of child numbers leads to, and the nodes on the way to it, the nearest first. -/
def descend (above : List Tree) (t : Tree) : List Nat → Option (Tree × List Tree)
  | [] => some (t, above)
  | i :: path =>
    match t.children[i]? with
    | some child => descend (t :: above) child path
    | none => none

theorem startTag?_eq (kind : NodeKind) (span : Span) (label : Option Label) (children : List Tree) :
    startTag? kind children = (node kind span label children).openingTag? := by
  show _ = (children.filter isNode).head?.filter _
  rw [List.head?_filter, startTag?]
  split
  · next hkind =>
      subst hkind
      refine congrArg (Option.filter · _) (funext fun tag => ?_)
      show (tag.kind? == some .startTag) = decide (some NodeKind.element = _ ∧ _)
      simp [beq_eq_decide]
  · next hkind =>
      show none = Option.filter (fun tag => decide (some kind = some .element ∧ _)) _
      rw [eq_comm, Option.filter_eq_none_iff]
      intro tag _
      simp [hkind]

theorem enclosingName?_cons (t : Tree) (above : List Tree) :
    enclosingName? (t :: above) =
      match t.openingTag? with
      | some tag => some (startTagNames tag).1
      | none => enclosingName? above := by
  rw [enclosingName?, List.findSome?_cons]
  cases t.openingTag? with
  | none => rfl
  | some tag => rfl

/-- A node ends where its last child ends and starts where its first does; without children it is
    empty. -/
def Spanned (t : Tree) : Prop := t.span = spanOf t.children t.span

theorem spanned_spanning (kind : NodeKind) (children : List Tree) (place : Span)
    (label : Option Label) : (spanning kind children place label).Spanned := by
  show spanOf children place = spanOf children (spanOf children place)
  cases children with
  | nil => rfl
  | cons first rest =>
      obtain ⟨last, hlast⟩ : ∃ last, (first :: rest).getLast? = some last :=
        ⟨_, List.getLast?_eq_getLast_of_ne_nil (List.cons_ne_nil first rest)⟩
      rw [spanOf, spanOf, hlast]
      rfl

theorem spanOf_map {f : Tree → Tree} (hf : ∀ t, (f t).span = t.span) (children : List Tree)
    (place : Span) : spanOf (children.map f) place = spanOf children place := by
  rw [spanOf, spanOf, List.head?_map, List.getLast?_map]
  cases children.head? with
  | none => rfl
  | some first =>
      cases children.getLast? with
      | none => rfl
      | some last =>
          show Span.mk _ _ _ = Span.mk _ _ _
          rw [hf, Span.stop, Span.stop, hf]

/-- Each node that the grammar builds covers its children and is not bound to tag helpers. -/
theorem Shaped.spanned {t n : Tree} (h : t.Shaped) (hn : n ∈ t.nodes) :
    n.Spanned ∧ n.kind? ≠ some .tagHelperElement := by
  rcases h.of_mem_nodes hn with h | ⟨ts, place, rfl⟩
  · cases h with
    | token t =>
        obtain ⟨kind, hkind⟩ := kind_of_mem_nodes hn
        exact nomatch hkind
    | leaf hkind ts place =>
        refine ⟨spanned_spanning .., ?_⟩
        rintro ⟨⟩
        exact nomatch hkind
    | code ts place plain => exact ⟨spanned_spanning .., nofun⟩
    | expression hkind before after marks ts place place' =>
        refine ⟨spanned_spanning .., ?_⟩
        rintro ⟨⟩
        exact nomatch hkind
    | branch hkind parts place =>
        refine ⟨spanned_spanning .., ?_⟩
        rintro ⟨⟩
        exact nomatch hkind
    | directive parts values place => exact ⟨spanned_spanning .., nofun⟩
  · exact ⟨spanned_spanning .., nofun⟩

end Tree

/-! ## Binding a place -/

open RazorLang.Tree

namespace TagHelperScope

/-- An element that stands inside some nodes gets a binding: its start tag gives a name that begins with
    the tag prefix, the binding has the rest of the name, and its tag helpers are all those in scope that
    admit the element, in their order and at least one. -/
def Binds (c : TagHelperScope) (above : List Tree) (t : Tree) (b : Binding) : Prop :=
  ∃ tag ∈ t.openingTag?, (startTagNames tag).1 = c.tagPrefix.getD [] ++ b.tag ∧
    b.helpers = c.helpers.filter
      (fun h => h.Admits b.tag (startTagNames tag).2 (enclosingName? above)) ∧
    b.helpers ≠ []

/-- One tree is another one, which stands inside some nodes, bound: it is the same token or a node with
    the same span, which is still the one that its children give; it is an element with tag helpers
    exactly if the other has a binding, and then it has that binding; else it has the kind and the label
    of the other. -/
structure Relabels (c : TagHelperScope) (above : List Tree) (t u : Tree) : Prop where
  token : u.token? = t.token?
  span : u.span = t.span
  covers : u.token? = none → u.Spanned
  isBound : u.kind? = some .tagHelperElement ↔ ∃ b, c.Binds above t b
  bound : ∀ b, c.Binds above t b → u.label? = some (.tagHelper b)
  kept : (∀ b, ¬ c.Binds above t b) → u.kind? = t.kind? ∧ u.label? = t.label?

variable {c : TagHelperScope}

/-- What is left of the name without the tag prefix is what tag helpers are selected by. -/
theorem bind?_eq (c : TagHelperScope) (name : Text) (attributes : List Text) (parent : Option Text) :
    c.bind? name attributes parent = (Text.after? (c.tagPrefix.getD []) name).bind fun tag =>
      if c.helpers.filter (TagHelper.applies · tag attributes parent) = [] then none
      else some ⟨tag, c.helpers.filter (TagHelper.applies · tag attributes parent)⟩ := by
  rw [bind?]
  cases c.tagPrefix with
  | none =>
      refine congrArg (Option.bind (some name)) (funext fun tag => ?_)
      dsimp only
      cases c.helpers.filter (TagHelper.applies · tag attributes parent) with
      | nil => rfl
      | cons h helpers => rfl
  | some lead =>
      refine congrArg (Option.bind (Text.after? lead name)) (funext fun tag => ?_)
      dsimp only
      cases c.helpers.filter (TagHelper.applies · tag attributes parent) with
      | nil => rfl
      | cons h helpers => rfl

theorem bind?_eq_some {name : Text} {attributes : List Text} {parent : Option Text} {b : Binding} :
    c.bind? name attributes parent = some b ↔
      name = c.tagPrefix.getD [] ++ b.tag ∧
        b.helpers = c.helpers.filter (fun h => h.Admits b.tag attributes parent) ∧
        b.helpers ≠ [] := by
  have hfilter (tag : Text) : c.helpers.filter (·.applies tag attributes parent) =
      c.helpers.filter (fun h => h.Admits tag attributes parent) := by
    refine List.filter_congr fun h _ => ?_
    rw [Bool.eq_iff_iff, decide_eq_true_iff]
    exact TagHelper.applies_iff
  rw [bind?_eq, Option.bind_eq_some_iff]
  constructor
  · rintro ⟨tag, htag, hb⟩
    rw [hfilter, Option.ite_none_left_eq_some] at hb
    obtain ⟨hne, hb⟩ := hb
    obtain rfl := Option.some.inj hb
    exact ⟨Text.after?_eq_some.mp htag, rfl, hne⟩
  · rintro ⟨hname, hhelpers, hne⟩
    refine ⟨b.tag, Text.after?_eq_some.mpr hname, ?_⟩
    rw [hfilter, ← hhelpers, if_neg hne]

/-- An element with a start tag is bound under its own name, and any other tree passes on the name of
    the element around it. -/
theorem bindTree_eq (above : List Tree) (kind : NodeKind) (span : Span) (label : Option Label)
    (children : List Tree) :
    c.bindTree (enclosingName? above) (node kind span label children) =
      match (node kind span label children).openingTag?.bind fun tag =>
          c.bind? (startTagNames tag).1 (startTagNames tag).2 (enclosingName? above) with
      | some b => node .tagHelperElement span (some (.tagHelper b))
          (children.map (c.bindTree (enclosingName? (node kind span label children :: above))))
      | none => node kind span label
          (children.map (c.bindTree (enclosingName? (node kind span label children :: above)))) := by
  rw [bindTree, startTag?_eq kind span label children, enclosingName?_cons]
  cases (node kind span label children).openingTag? with
  | none => rw [bindAll_eq]; rfl
  | some tag =>
      show (match c.bind? _ _ _ with | some b => _ | none => _) = _
      rw [bindAll_eq]
      rfl

/-- An element without a binding, or another tree, that keeps its kind and its label. -/
theorem Relabels.of_kept {above : List Tree} {t u : Tree} (token : u.token? = t.token?)
    (span : u.span = t.span) (covers : u.token? = none → u.Spanned)
    (hkind : t.kind? ≠ some .tagHelperElement) (hnot : ∀ b, ¬ c.Binds above t b)
    (kind_eq : u.kind? = t.kind?) (label_eq : u.label? = t.label?) : c.Relabels above t u where
  token := token
  span := span
  covers := covers
  isBound := by
    constructor
    · intro h
      exact absurd (kind_eq.symm.trans h) hkind
    · rintro ⟨b, hb⟩
      exact absurd hb (hnot b)
  bound b hb := absurd hb (hnot b)
  kept _ := ⟨kind_eq, label_eq⟩

theorem binds_iff {above : List Tree} {t : Tree} {b : Binding} :
    c.Binds above t b ↔ (t.openingTag?.bind fun tag =>
      c.bind? (startTagNames tag).1 (startTagNames tag).2 (enclosingName? above)) = some b := by
  rw [Option.bind_eq_some_iff]
  exact exists_congr fun tag => and_congr_right fun _ => bind?_eq_some.symm

/-- The children of a tree are bound under the name that is found from among them. -/
theorem children_bindTree (above : List Tree) (t : Tree) :
    (c.bindTree (enclosingName? above) t).children =
      t.children.map (c.bindTree (enclosingName? (t :: above))) := by
  cases t with
  | token t => rw [bindTree]; rfl
  | node kind span label children =>
      rw [bindTree_eq]
      split
      · rfl
      · rfl

/-- What binding makes of a tree itself. -/
theorem relabels_bindTree (above : List Tree) {t : Tree} (hspanned : t.token? = none → t.Spanned)
    (hkind : t.kind? ≠ some .tagHelperElement) :
    c.Relabels above t (c.bindTree (enclosingName? above) t) := by
  have hcovers (hnode : t.token? = none) : (c.bindTree (enclosingName? above) t).Spanned := by
    show _ = spanOf _ _
    rw [children_bindTree, spanOf_map (span_bindTree _), span_bindTree]
    exact hspanned hnode
  cases t with
  | token t =>
      rw [bindTree]
      have hnot (b : Binding) : ¬ c.Binds above (.token t) b := by
        rintro ⟨tag, htag, -⟩
        exact Option.some_ne_none tag htag.symm
      exact .of_kept rfl rfl (fun hnode => absurd hnode (Option.some_ne_none t)) hkind hnot rfl rfl
  | node kind span label children =>
      have hcovers := hcovers rfl
      have hbinds (b : Binding) := @binds_iff c above (node kind span label children) b
      rw [bindTree_eq] at hcovers ⊢
      revert hcovers hbinds
      cases (node kind span label children).openingTag?.bind fun tag =>
        c.bind? (startTagNames tag).1 (startTagNames tag).2 (enclosingName? above) with
      | none =>
          intro hcovers hbinds
          have hnot (b : Binding) : ¬ c.Binds above (node kind span label children) b :=
            fun h => Option.some_ne_none b ((hbinds b).mp h).symm
          exact .of_kept rfl rfl (fun _ => hcovers) hkind hnot rfl rfl
      | some b =>
          intro hcovers hbinds
          have hb : c.Binds above (node kind span label children) b := (hbinds b).mpr rfl
          refine ⟨rfl, rfl, fun _ => hcovers, ⟨fun _ => ⟨b, hb⟩, fun _ => rfl⟩, fun b' h => ?_,
            fun h => absurd hb (h b)⟩
          obtain rfl := Option.some.inj ((hbinds b').mp h)
          rfl

/-- A list of child numbers leads somewhere in a bound tree if it does in the tree, and then to what
    binding makes of the tree there. -/
theorem descend_bindTree (path : List Nat) {above above' : List Tree} {t : Tree}
    (hnodes : ∀ n ∈ t.nodes, n.Spanned ∧ n.kind? ≠ some .tagHelperElement) :
    Option.Rel (fun place place' => c.Relabels place.2 place.1 place'.1) (t.descend above path)
      ((c.bindTree (enclosingName? above) t).descend above' path) := by
  induction path generalizing t above above' with
  | nil =>
      refine .some (relabels_bindTree above ?_ ?_)
      · intro htoken
        cases t with
        | token t => exact nomatch htoken
        | node kind span label children => exact (hnodes _ (mem_nodes_self rfl)).1
      · intro hkind
        exact (hnodes t (mem_nodes_self hkind)).2 hkind
  | cons i path ih =>
      rw [descend, descend, children_bindTree, List.getElem?_map]
      cases hchild : t.children[i]? with
      | none => exact .none
      | some child =>
          refine ih fun n hn => hnodes n ?_
          exact nodes_subset_of_mem_children (List.mem_of_getElem? hchild) hn

end TagHelperScope

/-- Binding only relabels elements: the source, its kind and the diagnostics of a parsed document stay,
    the tokens of its tree stay, and at each place stands what stood there, bound. -/
theorem ParsedDocument.bind_relabels (kind : FileKind) (d : Source) (c : TagHelperScope) :
    ((parse kind d).bind c).source = d ∧ ((parse kind d).bind c).fileKind = kind ∧
      ((parse kind d).bind c).diagnostics = (parse kind d).diagnostics ∧
      ((parse kind d).bind c).root.tokens = (parse kind d).root.tokens ∧
      ∀ path, Option.Rel (fun place place' => c.Relabels place.2 place.1 place'.1)
        ((parse kind d).root.descend [] path) (((parse kind d).bind c).root.descend [] path) := by
  obtain ⟨-, hparsed, -⟩ := parse_run kind d
  refine ⟨rfl, rfl, rfl, TagHelperScope.tokens_bindTree none _, fun path => ?_⟩
  exact TagHelperScope.descend_bindTree path fun n hn => hparsed.spanned hn

end RazorLang
