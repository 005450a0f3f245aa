import RazorLang.Engine

/-!
# Which language a place is in

A token belongs to the node that holds it directly, and the kind of that node says which language the token
is in. A place between two tokens takes the language of the token behind it, except right behind C#
statements and expressions, where one goes on typing C#.
-/

namespace RazorLang

/-- The languages of a document: its own, and the two that it mixes. -/
inductive LanguageKind where
  | razor
  | csharp
  | html
  deriving DecidableEq, Repr, Inhabited

namespace LanguageKind

/-- The name of a language. -/
def name : LanguageKind → Text
  | razor => "Razor"
  | csharp => "CSharp"
  | html => "Html"

/-- The language of the tokens that a node of some kind holds. -/
def ofNode (k : NodeKind) : LanguageKind :=
  if k.isMarkup then html
  else
    match k with
    | .codeBlock | .statement | .statementBody | .statementCode | .explicitExpression
    | .implicitExpression | .expressionCode | .codeEphemeral => csharp
    | _ => razor

/-- Nodes whose tokens are C# of the author's own. -/
def isAuthored : NodeKind → Bool
  | .statementCode | .expressionCode => true
  | _ => false

end LanguageKind

namespace Tree

/-- The tokens of a tree that have characters, each with the kind of the node that holds it. -/
def written (t : Tree) : List (NodeKind × Token) :=
  (t.owned .document).filter fun (_, t) => !t.content.isEmpty

/-- The node kind of the token that an offset lies in. -/
def ownerAt? (t : Tree) (i : Nat) : Option NodeKind :=
  (t.written.find? fun (_, t) => t.span.contains i).map Prod.fst

/-- The node kind of the token that ends at an offset. -/
def ownerBefore? (t : Tree) (i : Nat) : Option NodeKind :=
  (t.written.reverse.find? fun (_, t) => t.span.stop == i).map Prod.fst

/-- The language at an offset; where there is no token, it is HTML. -/
def languageAt (t : Tree) (i : Nat) : LanguageKind :=
  match t.ownerBefore? i, t.ownerAt? i with
  | some before, owner =>
    if LanguageKind.isAuthored before then .csharp else .ofNode (owner.getD before)
  | none, some owner => .ofNode owner
  | none, none => .html

end Tree

/-- The language at an offset of a document; before it is compiled, all of it is Razor. -/
def CodeDocument.languageAt (d : CodeDocument) (i : Nat) : LanguageKind :=
  match d with
  | .pending _ => .razor
  | .compiled c => c.document.root.languageAt i

end RazorLang
