import RazorLang.Token.Tokenizer
import RazorLang.Tree.Basic

/-!
# Reading tokens

The grammar is written over a `Reader`: a tokenizer, the character right before it, and the diagnostics so
far. A rule is a `Grammar α`, a state transformer of readers. Repetition is `loop`, which ends because
each turn that asks for another one has to leave less to read; one that does not leaves the reader
`stalled`.
-/

namespace RazorLang

/-- Where the grammar stands in a document, and what it has reported. -/
structure Reader where
  tokenizer : Tokenizer
  /-- The character before the next token, if there is one. -/
  before : Option Char
  /-- What has been reported, the latest first. -/
  reported : List Diagnostic
  /-- A rule would have gone on for ever: it wanted to be repeated without having read anything. -/
  stalled : Bool := false
  deriving Inhabited

/-- A bound on the tokens ahead. -/
def Reader.left (r : Reader) : Nat := r.tokenizer.left

/-- A rule of the grammar: reads tokens and gives what it makes of them. -/
abbrev Grammar (α : Type) := StateM Reader α

namespace Grammar

/-! ## Looking ahead -/

/-- The token `n` places ahead of the next one. -/
def peekNth? (n : Nat) : Grammar (Option Token) := do
  return (← get).tokenizer.peekNth? n

/-- The kind of the token `n` places ahead of the next one. -/
def kindAt? (n : Nat) : Grammar (Option TokenKind) := do
  return (← peekNth? n).map (·.kind)

/-- The next token. -/
def peek? : Grammar (Option Token) := peekNth? 0

/-- The kind of the next token. -/
def kind? : Grammar (Option TokenKind) := kindAt? 0

/-- The next token has a given kind. -/
def isAt (kind : TokenKind) : Grammar Bool := do
  return (← kind?) == some kind

/-- The number of tokens from a tokenizer on whose kinds satisfy `p`. -/
def countRun (p : TokenKind → Bool) (s : Tokenizer) : Nat :=
  match _h : s.next? with
  | none => 0
  | some (t, s') => if p t.kind then countRun p s' + 1 else 0
termination_by s.left
decreasing_by exact Tokenizer.next?_left_lt ‹_›

/-- The tokenizer behind the next `n` tokens. -/
def skip (s : Tokenizer) : Nat → Tokenizer
  | 0 => s
  | n + 1 =>
    match s.next? with
    | none => s
    | some (_, s') => skip s' n

/-- The first place from `n` tokens ahead on where the kind does not satisfy `p`. -/
def placeBehind (p : TokenKind → Bool) (n : Nat) : Grammar Nat := do
  return n + countRun p (skip (← get).tokenizer n)

/-- The empty span before the next token. -/
def here : Grammar Span := do
  let s := (← get).tokenizer
  return Span.empty s.path s.place

/-! ## Reading on -/

/-- Reads on in a language. -/
def switchTo (language : Language) : Grammar Unit :=
  modify fun r => { r with tokenizer := r.tokenizer.switch language }

/-- Reports a broken rule. -/
def report (cause : Cause) (span : Span) : Grammar Unit :=
  modify fun r => { r with reported := ⟨cause, span⟩ :: r.reported }

/-- Reports several broken rules in order. -/
def reportAll (diagnostics : List Diagnostic) : Grammar Unit :=
  modify fun r => { r with reported := diagnostics.reverse ++ r.reported }

/-- Takes the next token; nothing at the end of the document. -/
def bump : Grammar (List Token) := fun r =>
  match r.tokenizer.next? with
  | none => ([], r)
  | some (t, s) => ([t], { r with tokenizer := s, before := t.content.getLast?.or r.before })

/-- Takes the part of the next token before a byte offset inside it, and reads on in the middle of the
    token; the whole token if the offset does not cut it. -/
def bumpPart (offset : Nat) : Grammar (List Token) := fun r =>
  match r.tokenizer.next? with
  | none => ([], r)
  | some (t, s) =>
    match t.splitAt? offset with
    | none => ([t], { r with tokenizer := s, before := t.content.getLast?.or r.before })
    | some (first, second) =>
      ([first],
        { r with
          tokenizer := { s with mode := .data, rest := second.content ++ s.rest,
                                place := second.span.start }
          before := first.content.getLast?.or r.before })

/-- What follows a turn of a repetition. -/
inductive Turn (α : Type) where
  | done (a : α)
  | again (a : α)

/-- Repeats a rule for as long as it asks for another turn and has read something. -/
def loop {α : Type} (turn : α → Grammar (Turn α)) (a : α) : Grammar α := fun r =>
  match turn a r with
  | (.done a', r') => (a', r')
  | (.again a', r') =>
    if r'.left < r.left then loop turn a' r' else (a', { r' with stalled := true })
termination_by r => r.left

/-- Takes up to `n` tokens. -/
def take : Nat → Grammar (List Token)
  | 0 => return []
  | n + 1 => do
    let first ← bump
    return first ++ (← take n)

/-- Takes tokens for as long as their kinds satisfy `p`. -/
def takeWhile (p : TokenKind → Bool) : Grammar (List Token) :=
  loop (fun tokens => do
    match ← kind? with
    | none => return .done tokens
    | some kind => if p kind then return .again (tokens ++ (← bump)) else return .done tokens) []

/-- White space within a line. -/
def isBlank (kind : TokenKind) : Bool := kind == .whitespace

/-- Takes white space, and line breaks too if `acrossLines` is set. -/
def takeTrivia (acrossLines : Bool) : Grammar (List Token) :=
  takeWhile fun kind => kind == .whitespace || (acrossLines && kind == .newLine)

/-- Takes tokens up to the `close` that matches the next `open`; says whether there is one. -/
def takeBalanced (opener closer : TokenKind) : Grammar (List Token × Bool) := do
  let (tokens, _, closed) ← loop (fun (tokens, depth, _) => do
    match ← bump with
    | [] => return .done (tokens, depth, false)
    | taken@(t :: _) =>
      if t.kind == opener then return .again (tokens ++ taken, depth + 1, false)
      else if t.kind == closer then
        if depth ≤ 1 then return .done (tokens ++ taken, 0, true)
        else return .again (tokens ++ taken, depth - 1, false)
      else return .again (tokens ++ taken, depth, false)) (([] : List Token), 0, false)
  return (tokens, closed)

/-! ## Nodes -/

/-- The node over some tokens; over none, it stands before the next token. -/
def nodeOver (kind : NodeKind) (tokens : List Token) : Grammar Tree := do
  return Tree.overTokens kind tokens (← here)

/-- A Razor comment, up to its second transition. -/
def razorComment : Grammar Tree := do
  let (tokens, _) ← loop (fun (tokens, transitions) => do
    match ← kind? with
    | none => return .done (tokens, transitions)
    | some kind =>
      if !kind.isRazorComment || transitions == 2 then return .done (tokens, transitions)
      else
        let opened := if kind == .commentTransition then transitions + 1 else transitions
        return .again (tokens ++ (← bump), opened)) (([] : List Token), 0)
  nodeOver .razorComment tokens

end Grammar

/-! ## Statements with markup between them -/

/-- The trees of a run of code: code that has been set apart already, and tokens of the piece being
    read. -/
structure CodeRun where
  trees : List Tree := []
  pending : List Token := []
  deriving Inhabited

namespace CodeRun

/-- Adds tokens to the piece being read. -/
def add (run : CodeRun) (tokens : List Token) : CodeRun :=
  { run with pending := run.pending ++ tokens }

/-- Sets the piece being read apart as a node of its own. -/
def flush (run : CodeRun) : CodeRun :=
  if run.pending.isEmpty then run
  else ⟨run.trees ++ [Tree.overTokens .statementCode run.pending default], []⟩

/-- Adds a tree behind the piece being read. -/
def push (run : CodeRun) (t : Tree) : CodeRun :=
  let flushed := run.flush
  { flushed with trees := flushed.trees ++ [t] }

/-- The trees of the whole run. -/
def finish (run : CodeRun) : List Tree := run.flush.trees

end CodeRun

end RazorLang
