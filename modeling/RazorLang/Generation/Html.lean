import RazorLang.Generation.Printer
import RazorLang.Tree.Document

/-!
# The HTML projection

Markup as it stands, and a `~` for every byte of anything else except line breaks: an offset in the
projection is the same offset in the source, and so are line and column. The mappings are the runs of
markup, which they map to themselves.
-/

namespace RazorLang

namespace Projection

/-- One character of a projection where the source is not markup. -/
def maskChar (c : Char) : Text :=
  if Text.isLineBreak c then [c] else List.replicate c.utf8Size '~'

/-- A text of a projection where the source is not markup. -/
def mask (t : Text) : Text := t.flatMap maskChar

/-- What a token is in the projection. -/
def project (owner : NodeKind) (t : Token) : Text :=
  if owner.isMarkup then t.content else mask t.content

/-- The tokens of a tree, each with the kind of its node. -/
def ownedTokens (root : Tree) : List (NodeKind × Token) := root.owned .document

/-- The tokens of markup that are not empty. -/
def markupTokens (root : Tree) : List Token :=
  ((ownedTokens root).filter fun (k, t) => k.isMarkup && !t.content.isEmpty).map Prod.snd

/-- Joins spans with the ones that start where they end. -/
def joinRuns : List Span → List Span
  | [] => []
  | s :: rest =>
    match joinRuns rest with
    | [] => [s]
    | r :: runs =>
      if r.start.offset ≤ s.stop then { s with length := r.stop - s.start.offset } :: runs
      else s :: r :: runs

/-- The runs of markup of a tree. -/
def runs (root : Tree) : List Span := joinRuns ((markupTokens root).map (·.span))

end Projection

/-- The HTML projection of a document. -/
def ParsedDocument.toHtml (p : ParsedDocument) : Generated :=
  ⟨(Projection.ownedTokens p.root).flatMap fun (k, t) => Projection.project k t,
    (Projection.runs p.root).map fun s => ⟨s, { s with path := none }⟩⟩

end RazorLang
