import RazorLang.Token.CSharp
import RazorLang.Token.Html

/-!
# Tokenizers

A `Tokenizer` is a place in a source with the language that it reads there and the mode it is in. Main
facts about `next?`:

* it shortens what is left (`next?_left_lt`), which is what every recursion over tokens ends by;
* the token's content and the text that remains are the text from before (`next?_content`), so no
  tokenizer loses anything.
-/

namespace RazorLang

/-- A place in a source, read as one of the languages. -/
structure Tokenizer where
  language : Language
  mode : Mode
  /-- The text ahead. -/
  rest : Text
  place : Location
  path : Option Text
  deriving DecidableEq, Repr, Inhabited

namespace Tokenizer

/-- A tokenizer for a text that starts at a place. -/
def start (language : Language) (path : Option Text) (place : Location) (t : Text) : Tokenizer :=
  ⟨language, .data, t, place, path⟩

/-- The tokenizer of a source from a byte offset on; an offset past the end stands for the end, and
    one inside a character leaves nothing to read. -/
def ofSource (language : Language) (d : Source) (offset : Nat) : Tokenizer :=
  start language d.path (d.location offset)
    ((Text.fromByte? (min offset d.size) d.text).getD [])

/-- The same place, read as a language from there on. -/
def switch (s : Tokenizer) (language : Language) : Tokenizer :=
  if s.language = language then s else { s with language, mode := .data }

/-- The cut of the next token, given the first character and the rest; a mode that expects a
    character which does not come is as good as none. -/
def cut (language : Language) (mode : Mode) (c : Char) (rest : Text) : Cut :=
  match mode, c with
  | .commentOpened, '*' => { kind := .commentStar, mode := .commentBody }
  | .escape, '@' => { kind := .transition }
  | .commentStar, '*' => { kind := .commentStar, mode := .commentEnd }
  | .commentEnd, '@' => { kind := .commentTransition }
  | _, _ =>
    match language with
    | .csharp => CSharp.cut c rest
    | .html => Html.cut c rest

/-- Gives out a token of the given content and goes on behind it. -/
def emit (s : Tokenizer) (kind : TokenKind) (flaw : Option Flaw) (content rest : Text)
    (mode : Mode) : Token × Tokenizer :=
  ({ kind, content, span := ⟨s.path, s.place, Text.size content⟩, flaw },
    { s with mode, rest, place := s.place.advance content })

/-- The body of a Razor comment, which ends before the first `*@` or with the text; it may be
    empty. -/
def nextBody (s : Tokenizer) : Token × Tokenizer :=
  match Text.indexOf? "*@" s.rest with
  | some n => s.emit .commentBody none (s.rest.take n) (s.rest.drop n) .commentStar
  | none => s.emit .commentBody (some .razorComment) s.rest [] .data

/-- The next token and the tokenizer behind it; none at the end of the text. -/
def next? (s : Tokenizer) : Option (Token × Tokenizer) :=
  if s.mode = .commentBody then some s.nextBody
  else
    match s.rest with
    | [] => none
    | c :: rest =>
      let cut := cut s.language s.mode c rest
      some (s.emit cut.kind cut.flaw (c :: rest.take cut.more) (rest.drop cut.more) cut.mode)

/-- A bound on the tokens ahead: two for each character, and one for the body of a comment, which
    may be empty. -/
def left (s : Tokenizer) : Nat := 2 * s.rest.length + if s.mode = .commentBody then 1 else 0

@[simp] theorem emit_snd (s : Tokenizer) (kind flaw content rest mode) :
    (s.emit kind flaw content rest mode).2 =
      { s with mode, rest, place := s.place.advance content } := rfl

@[simp] theorem emit_fst_content (s : Tokenizer) (kind flaw content rest mode) :
    (s.emit kind flaw content rest mode).1.content = content := rfl

theorem nextBody_left_lt {s : Tokenizer} (h : s.mode = .commentBody) : s.nextBody.2.left < s.left := by
  unfold nextBody
  split <;> simp only [emit_snd, left, h, if_true, List.length_drop, List.length_nil,
    reduceCtorEq, if_false] <;> omega

/-- Every token leaves less to read. -/
theorem next?_left_lt {s s' : Tokenizer} {t : Token} (h : s.next? = some (t, s')) :
    s'.left < s.left := by
  unfold next? at h
  split at h
  · next body =>
    have := nextBody_left_lt body
    simp only [Option.some.injEq] at h
    rw [h] at this
    exact this
  · next other =>
    cases hr : s.rest with
    | nil => simp [hr] at h
    | cons c rest =>
      simp only [hr, Option.some.injEq] at h
      generalize cut s.language s.mode c rest = k at h
      obtain ⟨-, rfl⟩ := Prod.mk.inj h
      simp only [left, hr, other, if_false, List.length_drop, List.length_cons]
      split <;> omega

/-- A token's content and what is left are what was there before. -/
theorem next?_content {s s' : Tokenizer} {t : Token} (h : s.next? = some (t, s')) :
    t.content ++ s'.rest = s.rest := by
  unfold next? at h
  split at h
  · simp only [Option.some.injEq, nextBody] at h
    split at h <;>
      (obtain ⟨rfl, rfl⟩ := Prod.mk.inj h; simp)
  · cases hr : s.rest with
    | nil => simp [hr] at h
    | cons c rest =>
      simp only [hr, Option.some.injEq] at h
      obtain ⟨rfl, rfl⟩ := Prod.mk.inj h
      simp

/-- The tokens ahead, each with the tokenizer behind it. -/
def steps (s : Tokenizer) : List (Token × Tokenizer) :=
  match _h : s.next? with
  | none => []
  | some (t, s') => (t, s') :: steps s'
termination_by s.left
decreasing_by exact next?_left_lt ‹_›

/-- The tokens ahead. -/
def tokens (s : Tokenizer) : List Token := s.steps.map Prod.fst

/-- The token `n` places ahead of the next one. -/
def peekNth? (s : Tokenizer) : Nat → Option Token
  | 0 => s.next?.map Prod.fst
  | n + 1 => s.next?.bind fun (_, s') => peekNth? s' n

/-- The next token. -/
def peek? (s : Tokenizer) : Option Token := s.peekNth? 0

end Tokenizer

end RazorLang
