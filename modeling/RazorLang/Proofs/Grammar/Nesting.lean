import RazorLang.Grammar.Markup
import RazorLang.Proofs.Tree.Parsed

/-!
# The nesting of elements: tokens

The tokens of a `MarkupRun` are those of the trees outside of all open elements, then those of the open
elements from the outermost to the innermost, then the text that is no node yet. Placing a tree where no
text is pending puts its tokens last (`tokens_place`), and closing elements moves trees without changing
the tokens (`tokens_closeInnermost`, `tokens_close`).
-/

namespace RazorLang

open RazorLang.Tree

/-- The tokens of some open elements, given from the innermost on, in the order of the source. -/
def openTokens : List OpenElement → List Token
  | [] => []
  | e :: outer => openTokens outer ++ (e.startTag.tokens ++ tokensAll e.content)

namespace OpenElement

@[simp] theorem tokens_close (e : OpenElement) (endTag : List Tree) :
    (e.close endTag).tokens = e.startTag.tokens ++ tokensAll e.content ++ tokensAll endTag := by
  rw [close, tokens_spanning, List.cons_append, tokensAll_cons, tokensAll_append, List.append_assoc]

/-- The trees of an open element are such as the grammar builds. -/
def Parsed (e : OpenElement) : Prop := e.startTag.Parsed ∧ AllParsed e.content

theorem Parsed.close {e : OpenElement} (h : e.Parsed) {endTag : List Tree}
    (hend : AllParsed endTag) : (e.close endTag).Parsed :=
  .branch rfl ((AllParsed.cons h.1 h.2).append hend) default

end OpenElement

namespace MarkupRun

/-- The tokens of a run of markup. -/
def tokens (m : MarkupRun) : List Token :=
  tokensAll m.trees ++ openTokens m.opened ++ m.pending

/-- The trees of a run of markup are such as the grammar builds. -/
structure Parsed (m : MarkupRun) : Prop where
  trees : AllParsed m.trees
  opened : ∀ e ∈ m.opened, e.Parsed

variable {m : MarkupRun} {t : Tree}

@[simp] theorem tokens_addText (m : MarkupRun) (ts : List Token) :
    (m.addText ts).tokens = m.tokens ++ ts := (List.append_assoc ..).symm

theorem Parsed.addText (h : m.Parsed) (ts : List Token) : (m.addText ts).Parsed := ⟨h.1, h.2⟩

theorem tokens_of_pending_eq_nil (h : m.pending = []) :
    m.tokens = tokensAll m.trees ++ openTokens m.opened := by
  rw [tokens, h, List.append_nil]

/-! ## Placing trees -/

@[simp] theorem pending_place (m : MarkupRun) (t : Tree) : (m.place t).pending = m.pending := by
  unfold place
  split <;> rfl

theorem tokens_place (h : m.pending = []) (t : Tree) : (m.place t).tokens = m.tokens ++ t.tokens := by
  rw [tokens_of_pending_eq_nil h, tokens_of_pending_eq_nil (by rw [pending_place, h])]
  unfold place
  split
  · next hnone => simp [hnone, openTokens]
  · next e outer hsome => simp [hsome, openTokens]

theorem Parsed.place (h : m.Parsed) (ht : t.Parsed) : (m.place t).Parsed := by
  unfold MarkupRun.place
  split
  · exact ⟨h.trees.append (.single ht), h.opened⟩
  · next e outer hsome =>
      have he : e.Parsed := h.opened e (by rw [hsome]; exact List.mem_cons_self ..)
      refine ⟨h.trees, fun f hf => ?_⟩
      rcases List.mem_cons.mp hf with rfl | hf
      · exact ⟨he.1, he.2.append (.single ht)⟩
      · exact h.opened f (by rw [hsome]; exact List.mem_cons_of_mem e hf)

theorem length_opened_place (m : MarkupRun) (t : Tree) :
    (m.place t).opened.length = m.opened.length := by
  unfold place
  split
  · rfl
  · next e outer hsome => rw [hsome]; rfl

@[simp] theorem pending_flush (m : MarkupRun) : m.flush.pending = [] := by
  unfold flush
  split
  · next hnone => exact List.isEmpty_iff.mp hnone
  · rw [pending_place]

@[simp] theorem tokens_flush (m : MarkupRun) : m.flush.tokens = m.tokens := by
  unfold flush
  split
  · rfl
  · rw [tokens_place rfl, tokens_overTokens, tokens_of_pending_eq_nil rfl]
    rfl

theorem Parsed.flush (h : m.Parsed) : m.flush.Parsed := by
  unfold MarkupRun.flush
  split
  · exact h
  · exact Parsed.place ⟨h.trees, h.opened⟩ (.leaf rfl m.pending default)

@[simp] theorem tokens_push (m : MarkupRun) (t : Tree) :
    (m.push t).tokens = m.tokens ++ t.tokens := by
  rw [push, tokens_place m.pending_flush, tokens_flush]

theorem Parsed.push (h : m.Parsed) (ht : t.Parsed) : (m.push t).Parsed := h.flush.place ht

theorem tokens_placeElement (h : m.pending = []) (t : Tree) :
    (m.placeElement t).tokens = m.tokens ++ t.tokens :=
  tokens_place (m := { m with complete := m.complete || m.opened.isEmpty }) h t

theorem Parsed.placeElement (h : m.Parsed) (ht : t.Parsed) : (m.placeElement t).Parsed :=
  Parsed.place ⟨h.trees, h.opened⟩ ht

theorem tokens_openElement (h : m.pending = []) (name : Text) (t : Tree) :
    (m.openElement name t).tokens = m.tokens ++ t.tokens := by
  rw [tokens_of_pending_eq_nil h, tokens_of_pending_eq_nil (m := m.openElement name t) h]
  simp [openElement, openTokens]

theorem Parsed.openElement (h : m.Parsed) (name : Text) (ht : t.Parsed) :
    (m.openElement name t).Parsed := by
  refine ⟨h.trees, fun e he => ?_⟩
  rcases List.mem_cons.mp he with rfl | he
  · exact ⟨ht, allParsed_nil⟩
  · exact h.opened e he

/-! ## Closing elements -/

/-- An open element is closed behind all that is inside it. -/
theorem tokens_placeElement_close {e : OpenElement} {outer : List OpenElement}
    (hopened : m.opened = e :: outer) (h : m.pending = []) (endTag : List Tree) :
    ({ m with opened := outer }.placeElement (e.close endTag)).tokens =
      m.tokens ++ tokensAll endTag := by
  rw [tokens_placeElement (m := { m with opened := outer }) h, tokens_of_pending_eq_nil h,
    tokens_of_pending_eq_nil (m := { m with opened := outer }) h, hopened,
    OpenElement.tokens_close, openTokens]
  simp only [List.append_assoc]

theorem Parsed.placeElement_close {e : OpenElement} {outer : List OpenElement} (h : m.Parsed)
    (hopened : m.opened = e :: outer) {endTag : List Tree} (hend : AllParsed endTag) :
    ({ m with opened := outer }.placeElement (e.close endTag)).Parsed := by
  have hin {f : OpenElement} (hf : f ∈ e :: outer) : f.Parsed := h.opened f (by rwa [hopened])
  exact Parsed.placeElement ⟨h.trees, fun f hf => hin (List.mem_cons_of_mem e hf)⟩
    ((hin (List.mem_cons_self ..)).close hend)

/-- Closing the innermost elements leaves as many fewer open. -/
theorem length_opened_closeInnermost (n : Nat) (m : MarkupRun) :
    (closeInnermost n m).1.opened.length = m.opened.length - n := by
  induction n generalizing m with
  | zero => rfl
  | succ n ih =>
      rw [closeInnermost]
      split
      · next hnone => rw [hnone, List.length_nil, Nat.zero_sub]
      · next e outer hopened =>
          dsimp only
          rw [ih, placeElement, length_opened_place, hopened, List.length_cons]
          show outer.length - n = outer.length + 1 - (n + 1)
          omega

theorem opened_closeInnermost_all (m : MarkupRun) :
    (closeInnermost m.opened.length m).1.opened = [] := by
  refine List.eq_nil_of_length_eq_zero ?_
  rw [length_opened_closeInnermost, Nat.sub_self]

theorem pending_closeInnermost (n : Nat) (m : MarkupRun) :
    (closeInnermost n m).1.pending = m.pending := by
  induction n generalizing m with
  | zero => rfl
  | succ n ih =>
      rw [closeInnermost]
      split
      · rfl
      · dsimp only
        rw [ih, placeElement, pending_place]

/-- Closing the innermost elements keeps tokens and trees. -/
theorem closeInnermost_spec (n : Nat) (h : m.pending = []) (hparsed : m.Parsed) :
    (closeInnermost n m).1.tokens = m.tokens ∧ (closeInnermost n m).1.Parsed := by
  induction n generalizing m with
  | zero => exact ⟨rfl, hparsed⟩
  | succ n ih =>
      rw [closeInnermost]
      split
      · exact ⟨rfl, hparsed⟩
      · next e outer hopened =>
          obtain ⟨htokens, hall⟩ :=
            ih (m := { m with opened := outer }.placeElement (e.close []))
              (by rw [placeElement, pending_place]; exact h)
              (hparsed.placeElement_close hopened allParsed_nil)
          refine ⟨?_, hall⟩
          rw [htokens, tokens_placeElement_close hopened h, tokensAll_nil, List.append_nil]

/-- An end tag comes behind all that is inside the element that it closes. -/
theorem close?_spec {m' : MarkupRun} {name : Text} {endTag : Tree} {reports : List Diagnostic}
    (hclose : m.close? name endTag = some (m', reports)) (h : m.pending = [])
    (hparsed : m.Parsed) (hend : endTag.Parsed) :
    m'.tokens = m.tokens ++ endTag.tokens ∧ m'.Parsed := by
  obtain ⟨n, hfind, hrest⟩ := Option.bind_eq_some_iff.mp hclose
  have hn : n < m.opened.length := (List.findIdx?_eq_some_iff_getElem.mp hfind).1
  obtain ⟨htokens, hall⟩ := closeInnermost_spec n h hparsed
  have hpending := (pending_closeInnermost n m).trans h
  have hlength := length_opened_closeInnermost n m
  generalize closeInnermost n m = inner at hrest htokens hpending hall hlength
  obtain ⟨m₁, inside⟩ := inner
  dsimp only at hrest htokens hpending hall hlength
  split at hrest
  · next hnone =>
      rw [hnone, List.length_nil] at hlength
      omega
  · next e outer hopened =>
      obtain ⟨rfl, -⟩ := Prod.mk.inj (Option.some.inj hrest)
      refine ⟨?_, hall.placeElement_close hopened (.single hend)⟩
      rw [tokens_placeElement_close hopened hpending, htokens, tokensAll_cons, tokensAll_nil,
        List.append_nil]

/-- At its end, a run of markup is the trees that it gives. -/
theorem finish_spec (h : m.Parsed) :
    tokensAll m.finish.1 = m.tokens ∧ AllParsed m.finish.1 := by
  obtain ⟨htokens, hall⟩ := closeInnermost_spec m.flush.opened.length m.pending_flush h.flush
  have hpending := (pending_closeInnermost m.flush.opened.length m.flush).trans m.pending_flush
  have hnone := m.flush.opened_closeInnermost_all
  refine ⟨?_, hall.trees⟩
  rw [tokens_of_pending_eq_nil hpending, hnone, tokens_flush] at htokens
  rw [← htokens, openTokens, List.append_nil]
  rfl

end MarkupRun

end RazorLang
