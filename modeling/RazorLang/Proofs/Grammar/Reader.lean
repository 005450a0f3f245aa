import RazorLang.Grammar.Reader
import RazorLang.Proofs.Text.Bytes
import RazorLang.Proofs.Tree.Parsed

/-!
# What rules read

A rule `Gives` a property of its result and of the reader behind it; rules are put together with
`gives_bind`. `Reader.Reads` says that a rule has read some tokens, one behind the other, and has not
stalled; `Reader.Adds` says the same of a rule that puts what it reads behind tokens from before.

All that is known of repetitions comes from one rule, `gives_loop_of_proceeds`, an induction on what is left to
read. Main statement: `gives_loop` — a repetition adds tokens if each of its turns does and each turn that
asks for another one leaves less to read.
-/

namespace RazorLang

/-! ## Properties of rules -/

namespace Grammar

variable {α β : Type}

/-- What a rule makes of a reader, and the reader behind it, have a property. -/
def Gives (g : Grammar α) (r : Reader) (P : α → Reader → Prop) : Prop := P (g r).1 (g r).2

@[simp] theorem gives_pure {a : α} {r : Reader} {P : α → Reader → Prop} :
    Gives (pure a) r P ↔ P a r := Iff.rfl

@[simp] theorem gives_bind {g : Grammar α} {f : α → Grammar β} {r : Reader}
    {P : β → Reader → Prop} :
    Gives (g >>= f) r P ↔ Gives g r fun a r' => Gives (f a) r' P := Iff.rfl

theorem Gives.mono {g : Grammar α} {r : Reader} {P Q : α → Reader → Prop} (h : Gives g r P)
    (hPQ : ∀ a r', P a r' → Q a r') : Gives g r Q := hPQ _ _ h

/-- What is known of a rule in two ways. -/
theorem Gives.and {g : Grammar α} {r : Reader} {P Q : α → Reader → Prop} (h : Gives g r P)
    (h' : Gives g r Q) : Gives g r fun a r' => P a r' ∧ Q a r' := ⟨h, h'⟩

end Grammar

/-! ## Tokens read -/

namespace Reader

/-- Between two readers lie some tokens, and nothing has stalled. -/
structure Reads (r : Reader) (ts : List Token) (r' : Reader) : Prop where
  run : Token.Run r.tokenizer.path r.tokenizer.place r.tokenizer.rest ts r'.tokenizer.place
    r'.tokenizer.rest
  path : r'.tokenizer.path = r.tokenizer.path
  left : r'.left ≤ r.left
  stalled : r'.stalled = r.stalled

/-- Between two readers lie the tokens that come in one list behind those of another. -/
def Adds (r : Reader) (before after : List Token) (r' : Reader) : Prop :=
  ∃ ts, after = before ++ ts ∧ r.Reads ts r'

variable {r r' r'' : Reader} {ts us before after : List Token}

theorem Reads.refl (r : Reader) : r.Reads [] r := ⟨.nil _ _, rfl, Nat.le_refl _, rfl⟩

theorem Reads.trans (h : r.Reads ts r') (h' : r'.Reads us r'') : r.Reads (ts ++ us) r'' := by
  have hrun := h'.run
  rw [h.path] at hrun
  exact ⟨h.run.trans hrun, h'.path.trans h.path, Nat.le_trans h'.left h.left,
    h'.stalled.trans h.stalled⟩

/-- Reading on without taking a token. -/
theorem Reads.trans_nil (h : r.Reads ts r') (h' : r'.Reads [] r'') : r.Reads ts r'' := by
  have := h.trans h'
  rwa [List.append_nil] at this

theorem Adds.refl (r : Reader) (ts : List Token) : r.Adds ts ts r :=
  ⟨[], (List.append_nil ts).symm, Reads.refl r⟩

theorem Adds.trans {middle : List Token} (h : r.Adds before middle r')
    (h' : r'.Adds middle after r'') : r.Adds before after r'' := by
  obtain ⟨ts, rfl, hts⟩ := h
  obtain ⟨us, rfl, hus⟩ := h'
  exact ⟨ts ++ us, List.append_assoc .., hts.trans hus⟩

theorem Adds.trans_nil (h : r.Adds before after r') (h' : r'.Reads [] r'') :
    r.Adds before after r'' := by
  obtain ⟨ts, rfl, hts⟩ := h
  exact ⟨ts, rfl, hts.trans_nil h'⟩

theorem Adds.nil_trans (h : r.Reads [] r') (h' : r'.Adds before after r'') :
    r.Adds before after r'' := by
  obtain ⟨ts, rfl, hts⟩ := h'
  exact ⟨ts, rfl, h.trans hts⟩

/-- Reading nothing leads nowhere else. -/
theorem Reads.offset_eq (h : r.Reads [] r') : r'.tokenizer.place.offset = r.tokenizer.place.offset := by
  rw [h.run.place]
  rfl

/-- Reading nothing leaves the text ahead as it is. -/
theorem Reads.rest_eq (h : r.Reads [] r') : r'.tokenizer.rest = r.tokenizer.rest :=
  h.run.content.symm

theorem Adds.left (h : r.Adds before after r') : r'.left ≤ r.left := by
  obtain ⟨ts, -, hts⟩ := h
  exact hts.left

theorem Reads.adds (h : r.Reads ts r') (before : List Token) : r.Adds before (before ++ ts) r' :=
  ⟨ts, rfl, h⟩

/-- Adding to no tokens is reading. -/
theorem adds_nil : r.Adds [] ts r' ↔ r.Reads ts r' := by
  constructor
  · rintro ⟨us, rfl, hus⟩
    exact hus
  · exact fun h => ⟨ts, rfl, h⟩

/-- What is read behind tokens that have been read. -/
theorem Reads.trans_adds (h : r.Reads ts r') (h' : r'.Adds ts after r'') : r.Reads after r'' :=
  adds_nil.mp ((adds_nil.mpr h).trans h')

end Reader

namespace Grammar

open Reader

variable {α : Type} {r : Reader} {P : α → Reader → Prop}

/-! ## Looking ahead -/

section LookAhead

variable {n : Nat} {p : TokenKind → Bool}

@[simp] theorem gives_get {P : Reader → Reader → Prop} : Gives get r P ↔ P r r := Iff.rfl

@[simp] theorem gives_peekNth? {P : Option Token → Reader → Prop} :
    Gives (peekNth? n) r P ↔ P (r.tokenizer.peekNth? n) r := Iff.rfl

@[simp] theorem gives_kindAt? {P : Option TokenKind → Reader → Prop} :
    Gives (kindAt? n) r P ↔ P ((r.tokenizer.peekNth? n).map (·.kind)) r := Iff.rfl

@[simp] theorem gives_peek? {P : Option Token → Reader → Prop} :
    Gives peek? r P ↔ P r.tokenizer.peek? r := Iff.rfl

@[simp] theorem gives_kind? {P : Option TokenKind → Reader → Prop} :
    Gives kind? r P ↔ P (r.tokenizer.peek?.map (·.kind)) r := Iff.rfl

@[simp] theorem gives_isAt {kind : TokenKind} {P : Bool → Reader → Prop} :
    Gives (isAt kind) r P ↔ P (r.tokenizer.peek?.map (·.kind) == some kind) r := Iff.rfl

@[simp] theorem gives_placeBehind {P : Nat → Reader → Prop} :
    Gives (placeBehind p n) r P ↔ P (n + countRun p (skip r.tokenizer n)) r := Iff.rfl

@[simp] theorem gives_here {P : Span → Reader → Prop} :
    Gives here r P ↔ P (Span.empty r.tokenizer.path r.tokenizer.place) r := Iff.rfl

@[simp] theorem gives_nodeOver {kind : NodeKind} {ts : List Token} {P : Tree → Reader → Prop} :
    Gives (nodeOver kind ts) r P ↔
      P (Tree.overTokens kind ts (Span.empty r.tokenizer.path r.tokenizer.place)) r := Iff.rfl

end LookAhead

/-- A rule only looks ahead. -/
def Looks (g : Grammar α) : Prop := ∀ r, Gives g r fun _ r' => r' = r

theorem Looks.gives {g : Grammar α} (h : Looks g) (hP : ∀ a, P a r) : Gives g r P := by
  refine (h r).mono fun a r' hr => ?_
  rw [hr]
  exact hP a

/-! ## Reading on -/

/-- A token is ahead. -/
def HasNext (r : Reader) : Prop := r.tokenizer.peek?.isSome = true

theorem hasNext_of_kind {kind : TokenKind} (h : r.tokenizer.peek?.map (·.kind) = some kind) :
    HasNext r := by
  obtain ⟨t, ht, -⟩ := Option.map_eq_some_iff.mp h
  rw [HasNext, ht]
  rfl

theorem hasNext_of_peekNth {t : Token} {n : Nat} (h : r.tokenizer.peekNth? n = some t) :
    HasNext r := by
  show (r.tokenizer.next?.map Prod.fst).isSome = true
  rw [Option.isSome_map]
  cases hnext : r.tokenizer.next? with
  | some p => rfl
  | none =>
      cases n with
      | zero =>
          rw [Tokenizer.peekNth?, hnext] at h
          exact nomatch h
      | succ n =>
          rw [Tokenizer.peekNth?, hnext] at h
          exact nomatch h

/-- Every tokenizer that has text ahead has a token ahead. -/
theorem hasNext_of_rest (h : r.tokenizer.rest ≠ []) : HasNext r := by
  have hnext : r.tokenizer.next?.isSome = true := by
    unfold Tokenizer.next?
    split
    · rfl
    · split
      · next hnil => exact absurd hnil h
      · rfl
  show (r.tokenizer.next?.map Prod.fst).isSome = true
  rw [Option.isSome_map]
  exact hnext

theorem rest_of_peek_eq_none (h : r.tokenizer.peek? = none) : r.tokenizer.rest = [] := by
  by_contra hrest
  have hnext := hasNext_of_rest hrest
  rw [HasNext, h] at hnext
  exact nomatch hnext

/-- Only the body of a comment can be a token where there is no text. -/
theorem rest_ne_nil_of_kind {kind : TokenKind}
    (h : r.tokenizer.peek?.map (·.kind) = some kind) (hkind : kind ≠ .commentBody) :
    r.tokenizer.rest ≠ [] := by
  intro hnil
  obtain ⟨t, ht, hk⟩ := Option.map_eq_some_iff.mp h
  obtain ⟨⟨t, s⟩, hnext, rfl⟩ := Option.map_eq_some_iff.mp ht
  unfold Tokenizer.next? at hnext
  split at hnext
  · have hbody := r.tokenizer.nextBody_kind
    rw [Option.some.inj hnext] at hbody
    exact hkind (hk.symm.trans hbody)
  · rw [hnil] at hnext
    exact nomatch hnext

theorem switchTo_reads (language : Language) (r : Reader) :
    Gives (switchTo language) r fun _ r' => r.Reads [] r' := by
  have hswitch : Gives (switchTo language) r fun _ r' =>
      r' = { r with tokenizer := r.tokenizer.switch language } := rfl
  refine hswitch.mono fun _ r' h => ?_
  subst h
  unfold Tokenizer.switch
  split
  · exact Reads.refl r
  · refine ⟨.nil _ _, rfl, ?_, rfl⟩
    show 2 * r.tokenizer.rest.length + 0 ≤ 2 * r.tokenizer.rest.length + _
    omega

theorem switchTo_language (language : Language) (r : Reader) :
    Gives (switchTo language) r fun _ r' => r'.tokenizer.language = language := by
  show (r.tokenizer.switch language).language = language
  unfold Tokenizer.switch
  split
  · next h => exact h
  · rfl

theorem report_reads (cause : Cause) (span : Span) (r : Reader) :
    Gives (report cause span) r fun _ r' => r.Reads [] r' :=
  ⟨.nil _ _, rfl, Nat.le_refl _, rfl⟩

theorem reportAll_reads (diagnostics : List Diagnostic) (r : Reader) :
    Gives (reportAll diagnostics) r fun _ r' => r.Reads [] r' :=
  ⟨.nil _ _, rfl, Nat.le_refl _, rfl⟩

/-- What taking the next token leads to. -/
theorem bump_eq {r : Reader} {t : Token} {s : Tokenizer} (h : r.tokenizer.next? = some (t, s)) :
    bump r = ([t], { r with tokenizer := s, before := t.content.getLast?.or r.before }) := by
  unfold bump
  rw [h]

theorem bump_end {r : Reader} (h : r.tokenizer.next? = none) : bump r = ([], r) := by
  unfold bump
  rw [h]

/-- The next token is read, if there is one. -/
theorem bump_reads (r : Reader) :
    Gives bump r fun ts r' =>
      r.Reads ts r' ∧ (HasNext r → r'.left < r.left) ∧ (ts ≠ [] → HasNext r) := by
  have hpeek : r.tokenizer.peek? = r.tokenizer.next?.map Prod.fst := rfl
  unfold Gives bump HasNext
  rw [hpeek]
  cases h : r.tokenizer.next? with
  | none => exact ⟨Reads.refl r, fun hnext => (nomatch hnext), fun hts => absurd rfl hts⟩
  | some p =>
      obtain ⟨hrun, hpath⟩ := Tokenizer.next?_run h
      have hleft := Tokenizer.next?_left_lt h
      exact ⟨⟨hrun, hpath, Nat.le_of_lt hleft, rfl⟩, fun _ => hleft, fun _ => rfl⟩

/-- Part of the next token is read, if the rest of the token does not start with a line feed. -/
theorem bumpPart_reads {offset : Nat} {r : Reader}
    (hwhole : ∀ t u v, r.tokenizer.peek? = some t →
      Text.splitAtByte? offset t.content = some (u, v) → v.head? ≠ some '\n') :
    Gives (bumpPart offset) r r.Reads := by
  unfold Gives bumpPart
  cases h : r.tokenizer.next? with
  | none => exact Reads.refl r
  | some p =>
      obtain ⟨t, s⟩ := p
      obtain ⟨hrun, hpath⟩ := Tokenizer.next?_run h
      have hleft := Tokenizer.next?_left_lt h
      dsimp only
      cases hsplit : t.splitAt? offset with
      | none => exact ⟨hrun, hpath, Nat.le_of_lt hleft, rfl⟩
      | some parts =>
          have hpeek : r.tokenizer.peek? = some t := by
            rw [Tokenizer.peek?, Tokenizer.peekNth?, h]
            rfl
          unfold Token.splitAt? at hsplit
          split at hsplit
          · next c u d v hparts =>
              obtain ⟨hcontent, -⟩ := Text.splitAtByte?_eq_some hparts
              have hline := hwhole t _ _ hpeek hparts
              -- the second part of the token goes back before the text behind it
              have hrest : r.tokenizer.rest = (c :: u) ++ ((d :: v) ++ s.rest) := by
                have htext := hrun.content
                rw [contentOf_cons, contentOf_nil, List.append_nil, hcontent] at htext
                rw [htext, List.append_assoc]
              have hspan := hrun.head_span
              rw [← Option.some.inj hsplit]
              refine ⟨?_, hpath, ?_, rfl⟩
              · dsimp only
                rw [hrest, hspan]
                refine Token.Run.single (t := { t with
                  content := c :: u, span := ⟨r.tokenizer.path, r.tokenizer.place, _⟩ }) rfl ?_
                rintro ⟨-, hhead⟩
                exact hline hhead
              · show 2 * ((d :: v) ++ s.rest).length + 0 ≤ 2 * r.tokenizer.rest.length + _
                rw [hrest]
                simp only [List.length_append, List.length_cons]
                omega
          · exact nomatch hsplit

/-! ## Repetition -/

/-- What a turn has come to. -/
def Turn.value : Turn α → α
  | done a => a
  | again a => a

/-- What a turn has to come to if the repetition from `a` at `r` on is to lead to `P`. The last turn leads there;
    a turn that reads something leads to `I` again, and where the rest leads to is where the whole leads to; and
    behind a turn that reads nothing the repetition stops, with a reader that is stalled. -/
def Turn.Proceeds (I : α → Reader → Prop) (P : α → Reader → α → Reader → Prop) (a : α) (r : Reader) :
    Turn α → Reader → Prop
  | done a', r' => P a r a' r'
  | again a', r' =>
    if r'.left < r.left then I a' r' ∧ ∀ b r'', P a' r' b r'' → P a r b r''
    else P a r a' { r' with stalled := true }

theorem Turn.proceeds_again {I : α → Reader → Prop} {P : α → Reader → α → Reader → Prop} {a a' : α}
    {r r' : Reader} (hlt : r'.left < r.left) :
    Turn.Proceeds I P a r (again a') r' ↔ I a' r' ∧ ∀ b r'', P a' r' b r'' → P a r b r'' :=
  iff_of_eq (if_pos hlt)

/-- The rule for repetitions. -/
theorem gives_loop_of_proceeds {turn : α → Grammar (Turn α)} {I : α → Reader → Prop}
    {P : α → Reader → α → Reader → Prop} {a : α} {r : Reader}
    (hturn : ∀ a r, I a r → Gives (turn a) r (Turn.Proceeds I P a r)) (ha : I a r) :
    Gives (loop turn a) r (P a r) := by
  unfold Gives
  induction hn : r.left using Nat.strongRecOn generalizing a r with
  | ind n ih =>
      have hproceeds := hturn a r ha
      unfold Gives at hproceeds
      rw [loop]
      split
      · next a' r' h =>
          rw [h] at hproceeds
          exact hproceeds
      · next a' r' h =>
          rw [h] at hproceeds
          split
          · next hlt =>
              obtain ⟨hI, hback⟩ := (Turn.proceeds_again hlt).mp hproceeds
              exact hback _ _ (ih r'.left (hn ▸ hlt) hI rfl)
          · next hstays =>
              rw [Turn.Proceeds, if_neg hstays] at hproceeds
              exact hproceeds

/-- What the turns of a repetition keep, whether one of them stalls or not, holds behind it. -/
theorem gives_loop_keeps {turn : α → Grammar (Turn α)} {I : α → Reader → Prop} {a : α} {r : Reader}
    (hstall : ∀ a r, I a r → I a { r with stalled := true })
    (hturn : ∀ a r, I a r → Gives (turn a) r fun t r' => I t.value r') (ha : I a r) :
    Gives (loop turn a) r I := by
  refine gives_loop_of_proceeds (P := fun _ _ => I) (fun a r ha => (hturn a r ha).mono ?_) ha
  rintro (a' | a') r' h
  · exact h
  · rw [Turn.Proceeds]
    split
    · exact ⟨h, fun _ _ hend => hend⟩
    · exact hstall a' r' h

/-- A repetition goes on behind a turn that has read something and asks for another one. -/
theorem gives_loop_again {turn : α → Grammar (Turn α)} {a : α} {r : Reader} {P : α → Reader → Prop}
    (h : Gives (turn a) r fun t r' => ∃ a', t = .again a' ∧ r'.left < r.left ∧ Gives (loop turn a') r' P) :
    Gives (loop turn a) r P := by
  obtain ⟨a', hturn, hlt, hrest⟩ := h
  unfold Gives
  rw [loop, show turn a r = (.again a', (turn a r).2) from Prod.ext hturn rfl]
  dsimp only
  rw [if_pos hlt]
  exact hrest

/-- A repetition ends behind a turn that asks for no other one. -/
theorem gives_loop_done {turn : α → Grammar (Turn α)} {a : α} {r : Reader} {P : α → Reader → Prop}
    (h : Gives (turn a) r fun t r' => ∃ a', t = .done a' ∧ P a' r') : Gives (loop turn a) r P := by
  obtain ⟨a', hturn, hend⟩ := h
  unfold Gives
  rw [loop, show turn a r = (.done a', (turn a r).2) from Prod.ext hturn rfl]
  exact hend

/-- A turn adds tokens; one that asks for another turn keeps `I` and leaves less to read, and the last
    one leads to `J`. -/
def Advances (f : α → List Token) (I J : α → Prop) (r : Reader) (a : α) (t : Turn α)
    (r' : Reader) : Prop :=
  r.Adds (f a) (f t.value) r' ∧
    match t with
    | .done a' => J a'
    | .again a' => I a' ∧ r'.left < r.left

theorem Advances.stop {f : α → List Token} {I J : α → Prop} {a : α} (h : J a) (r : Reader) :
    Advances f I J r a (.done a) r := ⟨Adds.refl r _, h⟩

/-- A turn that only collects tokens. -/
abbrev Collects (r : Reader) (ts : List Token) (t : Turn (List Token)) (r' : Reader) : Prop :=
  Advances id (fun _ => True) (fun _ => True) r ts t r'

theorem Collects.stop (r : Reader) (ts : List Token) : Collects r ts (.done ts) r :=
  Advances.stop trivial r

theorem Collects.done {r r' : Reader} {taken : List Token} (h : r.Reads taken r')
    (ts : List Token) : Collects r ts (.done (ts ++ taken)) r' := ⟨h.adds ts, trivial⟩

theorem Collects.again {r r' : Reader} {taken : List Token} (h : r.Reads taken r')
    (hless : r'.left < r.left) (ts : List Token) : Collects r ts (.again (ts ++ taken)) r' :=
  ⟨h.adds ts, trivial, hless⟩

theorem gives_loop {f : α → List Token} {I J : α → Prop} {turn : α → Grammar (Turn α)}
    {r : Reader} {a : α}
    (hturn : ∀ a r', r'.left ≤ r.left → I a → Gives (turn a) r' (Advances f I J r' a))
    (ha : I a) : Gives (loop turn a) r fun a' r' => r.Adds (f a) (f a') r' ∧ J a' := by
  refine gives_loop_of_proceeds (I := fun a r' => r'.left ≤ r.left ∧ I a)
    (P := fun a r' b r'' => r'.Adds (f a) (f b) r'' ∧ J b) (fun b r' hb => ?_) ⟨Nat.le_refl _, ha⟩
  obtain ⟨hle, hb⟩ := hb
  refine (hturn b r' hle hb).mono ?_
  rintro (b' | b') r'' ⟨hadds, hend⟩
  · exact ⟨hadds, hend⟩
  · obtain ⟨hI, hlt⟩ : I b' ∧ r''.left < r'.left := hend
    refine (Turn.proceeds_again hlt).mpr ⟨⟨Nat.le_trans (Nat.le_of_lt hlt) hle, hI⟩, ?_⟩
    rintro b₁ r₁ ⟨hrest, hJ⟩
    exact ⟨hadds.trans hrest, hJ⟩

/-- A repetition that only collects tokens, behind some that have been read. -/
theorem gives_loop_collects {turn : List Token → Grammar (Turn (List Token))}
    (hturn : ∀ ts r, Gives (turn ts) r (Collects r ts)) (ts : List Token) (r : Reader) :
    Gives (loop turn ts) r fun ts' r' => r.Adds ts ts' r' :=
  (gives_loop (fun ts r' _ _ => hturn ts r') trivial).mono fun _ _ h => h.1

/-- A repetition reads at least what its first turn reads. -/
theorem gives_loop_left {f : α → List Token} {I J : α → Prop} {turn : α → Grammar (Turn α)}
    {r : Reader} {a : α} {q : Prop}
    (hturn : ∀ a r', r'.left ≤ r.left → I a → Gives (turn a) r' (Advances f I J r' a))
    (ha : I a) (hfirst : q → Gives (turn a) r fun _ r' => r'.left < r.left) :
    Gives (loop turn a) r fun a' r' =>
      r.Adds (f a) (f a') r' ∧ J a' ∧ (q → r'.left < r.left) := by
  have hwhole := gives_loop hturn ha
  have hstep := hturn a r (Nat.le_refl _) ha
  unfold Gives at hfirst hstep hwhole ⊢
  refine ⟨hwhole.1, hwhole.2, fun hq => ?_⟩
  replace hfirst := hfirst hq
  rw [loop]
  split
  · next a' r' h =>
      rw [h] at hfirst
      exact hfirst
  · next a' r' h =>
      rw [h] at hfirst hstep
      obtain ⟨hI, hlt⟩ : I a' ∧ r'.left < r.left := hstep.2
      rw [if_pos hlt]
      have hrest : Gives (loop turn a') r' fun _ r'' => r''.left ≤ r'.left :=
        (gives_loop (fun a r'' hle => hturn a r'' (by omega)) hI).mono fun _ _ h => h.1.left
      exact Nat.lt_of_le_of_lt hrest hlt

/-- A repetition ends as its last turn does, if that one leads to `Q`. -/
theorem gives_loop_end {f : α → List Token} {I J : α → Prop} {Q : Reader → Prop}
    {turn : α → Grammar (Turn α)} {r : Reader} {a : α}
    (hturn : ∀ a r', r'.left ≤ r.left → I a → Gives (turn a) r' (Advances f I J r' a))
    (hlast : ∀ a r', Gives (turn a) r' fun t r'' => (∃ a', t = .again a') ∨ Q r'')
    (ha : I a) : Gives (loop turn a) r fun _ r' => Q r' := by
  refine gives_loop_of_proceeds (I := fun a r' => r'.left ≤ r.left ∧ I a) (P := fun _ _ _ r'' => Q r'')
    (fun b r' hb => ?_) ⟨Nat.le_refl _, ha⟩
  obtain ⟨hle, hb⟩ := hb
  refine ((hturn b r' hle hb).and (hlast b r')).mono ?_
  rintro (b' | b') r'' ⟨⟨-, hend⟩, hlast'⟩
  · exact hlast'.resolve_left fun ⟨_, hagain⟩ => nomatch hagain
  · obtain ⟨hI, hlt⟩ : I b' ∧ r''.left < r'.left := hend
    exact (Turn.proceeds_again hlt).mpr ⟨⟨Nat.le_trans (Nat.le_of_lt hlt) hle, hI⟩, fun _ _ hQ => hQ⟩

theorem take_reads (n : Nat) (r : Reader) :
    Gives (take n) r fun ts r' => r.Reads ts r' ∧ (0 < n → HasNext r → r'.left < r.left) := by
  induction n generalizing r with
  | zero => exact ⟨Reads.refl r, fun h => absurd h (Nat.lt_irrefl 0)⟩
  | succ n ih =>
      rw [take]
      simp only [gives_bind, gives_pure]
      refine (bump_reads r).mono ?_
      rintro first r' ⟨hfirst, hless, _⟩
      refine (ih r').mono ?_
      rintro rest r'' ⟨hrest, _⟩
      refine ⟨hfirst.trans hrest, fun _ hnext => ?_⟩
      have := hless hnext
      have := hrest.left
      omega

theorem takeWhile_reads (p : TokenKind → Bool) (r : Reader) : Gives (takeWhile p) r r.Reads := by
  refine (gives_loop_collects (fun ts r => ?_) [] r).mono fun ts r' h => adds_nil.mp h
  simp only [gives_bind, gives_kind?]
  split
  · exact .stop r ts
  · next kind hkind =>
      split
      · simp only [gives_bind, gives_pure]
        refine (bump_reads r).mono ?_
        rintro taken r' ⟨htaken, hless, _⟩
        exact .again htaken (hless (hasNext_of_kind hkind)) ts
      · exact .stop r ts

theorem takeTrivia_reads (acrossLines : Bool) (r : Reader) :
    Gives (takeTrivia acrossLines) r r.Reads := takeWhile_reads _ r

theorem takeBalanced_reads (opener closer : TokenKind) (r : Reader) :
    Gives (takeBalanced opener closer) r fun p r' =>
      r.Reads p.1 r' ∧ (HasNext r → r'.left < r.left) := by
  unfold takeBalanced
  simp only [gives_bind, gives_pure]
  refine (gives_loop_left (f := fun s : List Token × Nat × Bool => s.1) (I := fun _ => True)
    (J := fun _ => True) (q := HasNext r) ?_ trivial ?_).mono ?_
  · rintro ⟨tokens, depth, closed⟩ r' _ _
    simp only [gives_bind]
    refine (bump_reads r').mono ?_
    rintro taken r'' ⟨htaken, hless, hsome⟩
    have hadds := htaken.adds tokens
    split
    · rw [List.append_nil] at hadds
      exact ⟨hadds, trivial⟩
    · have hagain : r''.left < r'.left := hless (hsome (List.cons_ne_nil _ _))
      split
      · exact ⟨hadds, trivial, hagain⟩
      · split
        · split
          · exact ⟨hadds, trivial⟩
          · exact ⟨hadds, trivial, hagain⟩
        · exact ⟨hadds, trivial, hagain⟩
  · intro hnext
    simp only [gives_bind]
    refine (bump_reads r).mono ?_
    rintro taken r' ⟨_, hless, _⟩
    -- whatever the token is, the turn reads no further
    repeat' split
    all_goals exact hless hnext
  · rintro s r' ⟨hadds, _, hless⟩
    exact ⟨adds_nil.mp hadds, hless⟩

/-- A Razor comment is read up to its end, and at least the token that it starts with. -/
theorem razorComment_reads (r : Reader) :
    Gives razorComment r fun t r' => r.Reads t.tokens r' ∧ t.Parsed ∧
      (r.tokenizer.peek?.map (·.kind) = some .commentTransition → r'.left < r.left) := by
  unfold razorComment
  simp only [gives_bind, gives_nodeOver]
  refine (gives_loop_left (f := fun s : List Token × Nat => s.1) (I := fun _ => True)
    (J := fun _ => True) (q := r.tokenizer.peek?.map (·.kind) = some .commentTransition)
    ?_ trivial ?_).mono ?_
  · rintro ⟨tokens, transitions⟩ r' _ _
    simp only [gives_bind, gives_kind?]
    split
    · exact .stop trivial r'
    · next kind hkind =>
        split
        · exact .stop trivial r'
        · simp only [gives_bind, gives_pure]
          refine (bump_reads r').mono ?_
          rintro taken r'' ⟨htaken, hless, _⟩
          exact ⟨htaken.adds _, trivial, hless (hasNext_of_kind hkind)⟩
  · intro hkind
    simp only [gives_bind, gives_kind?, hkind]
    rw [if_neg (by decide), gives_bind]
    refine (bump_reads r).mono ?_
    rintro taken r' ⟨_, hless, _⟩
    exact hless (hasNext_of_kind hkind)
  · rintro s r' ⟨hadds, _, hless⟩
    refine ⟨?_, .leaf rfl _ _, hless⟩
    rw [Tree.tokens_overTokens]
    exact adds_nil.mp hadds

end Grammar

/-! ## Runs of code -/

namespace CodeRun

open RazorLang.Tree

/-- The tokens of a run of code. -/
def tokens (run : CodeRun) : List Token := tokensAll run.trees ++ run.pending

/-- The trees of a run of code are such as the grammar builds. -/
def Parsed (run : CodeRun) : Prop := AllParsed run.trees

variable {run : CodeRun}

@[simp] theorem tokens_add (run : CodeRun) (ts : List Token) :
    (run.add ts).tokens = run.tokens ++ ts := (List.append_assoc ..).symm

theorem Parsed.add (h : run.Parsed) (ts : List Token) : (run.add ts).Parsed := h

@[simp] theorem tokens_flush (run : CodeRun) : tokensAll run.flush.trees = run.tokens := by
  unfold flush tokens
  split
  · next hnone => rw [List.isEmpty_iff.mp hnone, List.append_nil]
  · rw [tokensAll_append, tokensAll_cons, tokensAll_nil, List.append_nil, tokens_overTokens]

theorem pending_flush (run : CodeRun) : run.flush.pending = [] := by
  unfold flush
  split
  · next hnone => exact List.isEmpty_iff.mp hnone
  · rfl

theorem Parsed.flush (h : run.Parsed) : run.flush.Parsed := by
  unfold CodeRun.flush
  split
  · exact h
  · exact AllParsed.append h (.single (.code run.pending default))

@[simp] theorem tokens_push (run : CodeRun) (t : Tree) :
    (run.push t).tokens = run.tokens ++ t.tokens := by
  show tokensAll (run.flush.trees ++ [t]) ++ run.flush.pending = _
  rw [tokensAll_append, tokens_flush, pending_flush, tokensAll_cons, tokensAll_nil]
  simp only [List.append_nil]

theorem Parsed.push (h : run.Parsed) {t : Tree} (ht : t.Parsed) : (run.push t).Parsed :=
  AllParsed.append h.flush (.single ht)

@[simp] theorem tokens_finish (run : CodeRun) : tokensAll run.finish = run.tokens :=
  run.tokens_flush

theorem Parsed.finish (h : run.Parsed) : AllParsed run.finish := h.flush

end CodeRun

end RazorLang
