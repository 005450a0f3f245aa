import RazorLang.Proofs.Grammar.Markup
import RazorLang.Tree.Document

/-!
# Syntax trees cover their sources

Main statement: `ParsedDocument.parse_covers` — the grammar never stalls, and the tokens of the tree that
it builds are the whole source: none is lost, none comes twice, and each lies where its offset says. The
route: the tokens are a run from the start of the source to its end (`parse_run`), and a run places its
tokens as the line starts of the source do (`Token.Run.span_eq`).
-/

namespace RazorLang

open RazorLang.Tree Text

/-- Some tokens cover a source: each starts where the one before it ends, and together they are its
    text. -/
structure Source.Covers (d : Source) (ts : List Token) : Prop where
  first : ∀ t ∈ ts.head?, t.span.start.offset = 0
  adjacent : ts.IsChain fun s t => t.span.start.offset = s.span.stop
  length : ∀ t ∈ ts, t.span.length = Text.size t.content
  last : ∀ t ∈ ts.getLast?, t.span.stop = d.size
  text : contentOf ts = d.text
  place : ∀ t ∈ ts, t.span.start = d.location t.span.start.offset

namespace Token.Run

variable {path : Option Text} {l l' : Location} {s s' : Text} {ts : List Token}

/-- A run from the start of a source places its tokens where the source has their offsets. -/
theorem span_eq {d : Source} (h : Run path .start d.text ts l' s') {before after : List Token}
    {t : Token} (hts : ts = before ++ t :: after) :
    t.span = ⟨path, d.location t.span.start.offset, size t.content⟩ ∧
      t.span.start.offset = size (contentOf before) := by
  subst hts
  obtain ⟨l₁, s₁, hbefore, hrest⟩ := h.append
  have hoffset : t.span.start.offset = size (contentOf before) := by
    rw [hrest.head_span, hbefore.offset]
    exact Nat.zero_add _
  refine ⟨?_, hoffset⟩
  rw [hoffset, Source.location_of_append hbefore.content hbefore.whole, ← hbefore.place]
  exact hrest.head_span

end Token.Run

namespace ParsedDocument

/-- The tree of a document is such as the grammar builds. -/
theorem parsed_root (kind : FileKind) (d : Source) : (parse kind d).root.Parsed := by
  obtain ⟨-, hall, -⟩ := Grammar.markup_reads kind .document (readerOf d)
  exact .branch rfl (AllParsed.single (.branch rfl hall _)) _

/-- The tokens of a tree are a run from the start of the source to its end, and the tree has the shape of
    those that the grammar builds. -/
theorem parse_run (kind : FileKind) (d : Source) :
    (∃ l, Token.Run d.path .start d.text (parse kind d).root.tokens l []) ∧
      (parse kind d).root.Shaped ∧
      (Grammar.markup kind .document (readerOf d)).2.stalled = false := by
  obtain ⟨hreads, -, -⟩ := Grammar.markup_reads kind .document (readerOf d)
  have hrest := Grammar.markup_document_rest kind (readerOf d)
  unfold Grammar.Gives at hrest
  have hrun := hreads.run
  rw [hrest] at hrun
  have htokens : (parse kind d).root.tokens =
      tokensAll (Grammar.markup kind .document (readerOf d)).1 := by
    simp [parse]
  rw [htokens]
  exact ⟨⟨_, hrun⟩, (parsed_root kind d).shaped, hreads.stalled⟩

/-- Parsing ends, and the tokens of the tree cover the source. -/
theorem parse_covers (kind : FileKind) (d : Source) :
    (Grammar.markup kind .document (readerOf d)).2.stalled = false ∧
      d.Covers (parse kind d).root.tokens := by
  obtain ⟨⟨l, hrun⟩, -, hstalled⟩ := parse_run kind d
  generalize (parse kind d).root.tokens = ts at hrun
  have hmember {t : Token} (ht : t ∈ ts) :
      t.span = ⟨d.path, d.location t.span.start.offset, size t.content⟩ := by
    obtain ⟨before, after, hts⟩ := List.append_of_mem ht
    exact (hrun.span_eq hts).1
  have htext : contentOf ts = d.text := hrun.contentOf_eq
  refine ⟨hstalled, ⟨?_, hrun.isChain, ?_, ?_, htext, ?_⟩⟩
  · intro t ht
    cases ts with
    | nil => exact nomatch ht
    | cons first ts =>
        rw [← Option.some.inj ht, hrun.head_span]
        rfl
  · intro t ht
    rw [hmember ht]
  · intro t ht
    obtain ⟨before, hts⟩ := List.getLast?_eq_some_iff.mp ht
    obtain ⟨hspan, hoffset⟩ := hrun.span_eq hts
    rw [Span.stop, hoffset, hspan, Source.size, ← htext, hts, contentOf_append, size_append]
    simp
  · intro t ht
    exact congrArg Span.start (hmember ht)

end ParsedDocument

end RazorLang
