import Mathlib.Data.List.Forall2
import RazorLang.Generation.Body
import RazorLang.Proofs.Text.Splitting

/-!
# What the body of a page does

The body of a page writes literals and expressions, runs statements, and defines sections
(`PageOperation`). `readOperations` reads these off the instructions that print the body, decoding each
string literal. Main statement: `Emission.readOperations_printAll` — what is read is what the emissions
say, without the code that is blank.
-/

namespace RazorLang

open Text

/-! ## Operations -/

/-- What the body of a page does at one place. -/
inductive PageOperation where
  | literal (t : Text)
  | expression (t : Text)
  | statement (t : Text)
  | sectionStart (name : Text)
  | sectionEnd
  deriving DecidableEq, Repr

namespace PageOperation

/-- Joins adjacent literals; a literal of no text writes nothing. -/
def joinLiterals : List PageOperation → List PageOperation
  | [] => []
  | .literal t :: rest =>
    match joinLiterals rest with
    | .literal u :: behind => .literal (t ++ u) :: behind
    | joined => if t.isEmpty then joined else .literal t :: joined
  | op :: rest => op :: joinLiterals rest

/-- The operation is code of nothing but white space. -/
def isBlankCode : PageOperation → Bool
  | expression t | statement t => Text.isBlank t
  | _ => false

/-- Drops code of nothing but white space. -/
def dropBlankCode (ops : List PageOperation) : List PageOperation := ops.filter (!·.isBlankCode)

theorem dropBlankCode_of_isBlankCode {op : PageOperation} (h : op.isBlankCode = true) :
    dropBlankCode [op] = [] := by
  rw [dropBlankCode, List.filter_cons, h]
  rfl

theorem dropBlankCode_of_not_isBlankCode {op : PageOperation} (h : op.isBlankCode = false) :
    dropBlankCode [op] = [op] := by
  rw [dropBlankCode, List.filter_cons, h]
  rfl

end PageOperation

/-! ## String literals -/

/-- The character that stands behind a backslash for another one. -/
def escaped? : Char → Option Char
  | '"' => some '"'
  | '\\' => some '\\'
  | 'n' => some '\n'
  | 'r' => some '\r'
  | 't' => some '\t'
  | '0' => some '\x00'
  | _ => none

/-- The text that a string literal stands for, read from behind its opening quote, and what follows its
    closing one. -/
def readLiteral? : Text → Option (Text × Text)
  | [] => none
  | '"' :: rest => some ([], rest)
  | '\\' :: c :: rest => do
    let d ← escaped? c
    let (t, behind) ← readLiteral? rest
    return (d :: t, behind)
  | c :: rest =>
    if c = '\n' ∨ c = '\r' then none
    else do
      let (t, behind) ← readLiteral? rest
      return (c :: t, behind)

/-- The text that a string literal stands for, if it is all there is between two texts. -/
def literalBetween? (lead tail t : Text) : Option Text := do
  let '"' :: rest ← after? lead t | none
  let (u, behind) ← readLiteral? rest
  if behind = tail then some u else none

/-! ## Reading printed code -/

/-- The operations that some instructions print. -/
def readOperations : List Print → Option (List PageOperation)
  | [] => some []
  | .freshLine :: .line t :: rest => do
    let u ← literalBetween? "WriteLiteral(" ");" t
    return .literal u :: (← readOperations rest)
  | .freshLine :: .write call :: .copy t _ :: .line tail :: rest =>
    if call = "Write(".toList ∧ tail = ");".toList then do
      return .expression t :: (← readOperations rest)
    else none
  | .freshLine :: .copy t _ :: .freshLine :: rest => do
    return .statement t :: (← readOperations rest)
  | .freshLine :: .write call :: .write name :: .line tail :: .indent :: rest =>
    if call = "DefineSection(".toList ∧ tail = ", async() => \x7b".toList then do
      return .sectionStart (← literalBetween? [] [] name) :: (← readOperations rest)
    else none
  | .dedent :: .line brace :: .line tail :: rest =>
    if brace = "\x7d".toList ∧ tail = ");".toList then do
      return .sectionEnd :: (← readOperations rest)
    else none
  | _ => none

/-! ## Literals -/

/-- In a literal a character stands for itself, unless it is escaped. -/
theorem literalChar_cases (c : Char) :
    (literalChar c = [c] ∧ c ≠ '"' ∧ c ≠ '\\' ∧ c ≠ '\n' ∧ c ≠ '\r') ∨
      ∃ d, literalChar c = ['\\', d] ∧ escaped? d = some c := by
  have hescaped {c d : Char} (h : literalChar c = ['\\', d]) (hd : escaped? d = some c) :
      ∃ d, literalChar c = ['\\', d] ∧ escaped? d = some c := ⟨d, h, hd⟩
  by_cases hquote : c = '"'
  · rw [hquote]
    exact Or.inr (hescaped rfl rfl)
  by_cases hslash : c = '\\'
  · rw [hslash]
    exact Or.inr (hescaped rfl rfl)
  by_cases hfeed : c = '\n'
  · rw [hfeed]
    exact Or.inr (hescaped rfl rfl)
  by_cases hreturn : c = '\r'
  · rw [hreturn]
    exact Or.inr (hescaped rfl rfl)
  by_cases htab : c = '\t'
  · rw [htab]
    exact Or.inr (hescaped rfl rfl)
  by_cases hnull : c = '\x00'
  · rw [hnull]
    exact Or.inr (hescaped rfl rfl)
  refine Or.inl ⟨?_, hquote, hslash, hfeed, hreturn⟩
  simp [literalChar, hquote, hslash, hfeed, hreturn, htab, hnull]

/-- A string literal is read as the text that it was made of. -/
theorem readLiteral?_flatMap (t rest : Text) :
    readLiteral? (t.flatMap literalChar ++ '"' :: rest) = some (t, rest) := by
  induction t with
  | nil => rfl
  | cons c t ih =>
      rw [List.flatMap_cons, List.append_assoc]
      rcases literalChar_cases c with ⟨hself, hquote, hslash, hfeed, hreturn⟩ | ⟨d, hchar, hd⟩
      · rw [hself, List.singleton_append, readLiteral?, ih]
        · rw [if_neg (not_or.mpr ⟨hfeed, hreturn⟩)]
          rfl
        · exact hquote
        · intro d rest' h _
          exact hslash h
      · rw [hchar]
        show readLiteral? ('\\' :: d :: (t.flatMap literalChar ++ '"' :: rest)) = _
        rw [readLiteral?, hd, ih]
        rfl

/-- What stands between two texts is read as the text of its literal. -/
theorem literalBetween?_append (lead tail t : Text) :
    literalBetween? lead tail (lead ++ stringLiteral t ++ tail) = some t := by
  have hliteral : lead ++ stringLiteral t ++ tail =
      lead ++ '"' :: (t.flatMap literalChar ++ '"' :: tail) := by
    simp [stringLiteral]
  rw [hliteral, literalBetween?, after?_append]
  show (readLiteral? (t.flatMap literalChar ++ '"' :: tail)).bind _ = _
  rw [readLiteral?_flatMap]
  exact if_pos rfl

theorem literalBetween?_stringLiteral (t : Text) : literalBetween? [] [] (stringLiteral t) = some t := by
  have := literalBetween?_append [] [] t
  rwa [List.nil_append, List.append_nil] at this

/-! ## Emissions -/

namespace Emission

/-- The operation that an emission stands for, if it is one of a page without tag helpers. -/
def operation? : Emission → Option PageOperation
  | markup t => some (.literal t)
  | expression t _ => some (.expression t)
  | statement t _ => some (.statement t)
  | sectionStart name => some (.sectionStart name)
  | sectionEnd => some .sectionEnd
  | _ => none

/-- The code of a page that is compiled for running. -/
def pageKind : BodyKind := ⟨false, false⟩

/-- What is printed for one emission is read as its operation, unless it is blank code. -/
theorem readOperations_print {e : Emission} {op : PageOperation} (h : e.operation? = some op)
    (s : BodyState) {rest : List Print} {ops : List PageOperation}
    (hrest : readOperations rest = some ops) :
    readOperations ((print pageKind s e).2 ++ rest) =
      some (PageOperation.dropBlankCode [op] ++ ops) := by
  have hkeep : op.isBlankCode = false → _ := PageOperation.dropBlankCode_of_not_isBlankCode
  have hdrop : op.isBlankCode = true → _ := PageOperation.dropBlankCode_of_isBlankCode
  -- the lines of each emission are spelled out, and the reader takes them as one operation
  cases e with
  | markup t =>
      obtain rfl := Option.some.inj h
      rw [hkeep rfl]
      show readOperations
        (.freshLine :: .line ("WriteLiteral(" ++ stringLiteral t ++ ");") :: rest) = _
      rw [readOperations, literalBetween?_append, hrest]
      rfl
  | expression t span =>
      obtain rfl := Option.some.inj h
      show readOperations ((printExpression pageKind s t span).2 ++ rest) = _
      rw [printExpression]
      split
      · next hblank =>
          rw [hdrop hblank]
          exact hrest
      · next hblank =>
          rw [hkeep (Bool.eq_false_iff.mpr hblank)]
          show readOperations
            (.freshLine :: .write "Write(" :: .copy t span :: .line ");" :: rest) = _
          rw [readOperations, if_pos ⟨rfl, rfl⟩, hrest]
          rfl
  | statement t span =>
      obtain rfl := Option.some.inj h
      show readOperations (printCode t span ++ rest) = _
      rw [printCode]
      split
      · next hblank =>
          rw [hdrop hblank]
          exact hrest
      · next hblank =>
          rw [hkeep (Bool.eq_false_iff.mpr hblank)]
          show readOperations (.freshLine :: .copy t span :: .freshLine :: rest) = _
          rw [readOperations, hrest]
          rfl
  | sectionStart name =>
      obtain rfl := Option.some.inj h
      rw [hkeep rfl]
      show readOperations (.freshLine :: .write "DefineSection(" :: .write (stringLiteral name) ::
        .line ", async() => \x7b" :: .indent :: rest) = _
      rw [readOperations, if_pos ⟨rfl, rfl⟩, literalBetween?_stringLiteral, hrest]
      rfl
  | sectionEnd =>
      obtain rfl := Option.some.inj h
      rw [hkeep rfl]
      show readOperations (.dedent :: .line "\x7d" :: .line ");" :: rest) = _
      rw [readOperations, if_pos ⟨rfl, rfl⟩, hrest]
      rfl
  | _ => exact nomatch h

/-- An emission stands for an operation. -/
def StandsFor (e : Emission) (op : PageOperation) : Prop := e.operation? = some op

theorem forall₂_standsFor {es : List Emission} {ops : List PageOperation} :
    List.Forall₂ StandsFor es ops ↔ es.map operation? = ops.map some := by
  rw [← List.forall₂_eq_eq_eq, List.forall₂_map_left_iff, List.forall₂_map_right_iff]
  rfl

/-- What is printed for emissions is read as their operations, without the code that is blank. -/
theorem readOperations_printAll {es : List Emission} {ops : List PageOperation}
    (h : es.map operation? = ops.map some) (s : BodyState) :
    readOperations (printAll pageKind s es) = some (PageOperation.dropBlankCode ops) := by
  induction forall₂_standsFor.mpr h generalizing s with
  | nil => rfl
  | @cons e op es ops hop hops ih =>
      show readOperations ((print pageKind s e).2 ++ printAll pageKind _ es) = _
      rw [readOperations_print hop s (ih (forall₂_standsFor.mp hops) _)]
      exact congrArg some (List.filter_append [op] ops).symm

/-- Joining markup joins the literals that it stands for. -/
theorem map_operation_joinMarkup {es : List Emission} {ops : List PageOperation}
    (h : es.map operation? = ops.map some) :
    (joinMarkup es).map operation? = (PageOperation.joinLiterals ops).map some := by
  rw [← forall₂_standsFor] at h ⊢
  induction h with
  | nil => exact .nil
  | @cons e op es ops hop hops ih =>
      cases e with
      | markup t =>
          obtain rfl := Option.some.inj hop
          rw [joinMarkup, PageOperation.joinLiterals]
          have hempty {joined : List Emission} {joinedOps : List PageOperation}
              (h : List.Forall₂ StandsFor joined joinedOps) :
              List.Forall₂ StandsFor (if t.isEmpty then joined else markup t :: joined)
                (if t.isEmpty then joinedOps else .literal t :: joinedOps) := by
            split
            · exact h
            · exact .cons rfl h
          -- both sides join with what stands first behind them, which is markup on one side if and only if it
          -- is a literal on the other
          generalize joinMarkup es = joined at ih
          generalize PageOperation.joinLiterals ops = joinedOps at ih
          cases ih with
          | nil => exact hempty .nil
          | @cons e' op' behind behindOps hop' hbehind =>
              cases e' with
              | markup u =>
                  obtain rfl := Option.some.inj hop'
                  exact .cons rfl hbehind
              | expression u span | statement u span | sectionStart name | sectionEnd =>
                  obtain rfl := Option.some.inj hop'
                  exact hempty (.cons rfl hbehind)
              | _ => exact nomatch hop'
      | expression t span | statement t span | sectionStart name | sectionEnd =>
          obtain rfl := Option.some.inj hop
          exact .cons rfl ih
      | _ => exact nomatch hop

end Emission

end RazorLang
