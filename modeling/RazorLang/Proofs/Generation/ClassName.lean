import RazorLang.Generation.Literal
import RazorLang.Proofs.Token.CSharp
import RazorLang.Proofs.Token.Literals

/-!
# Names of classes

The class that is generated for a source is named for its path (`className`): the segments of the path are made into
identifiers, a component takes the last of them and a page all of them with underscores between. Such a name is a
word of C# or nothing, never more than one token. It is reserved exactly if it is one segment that is itself reserved,
since a name with an underscore never is (`Keyword.free_of_underscore`), and a page has no name at all if its path
has no segment; a component falls back on `anonymousClass` then.

Main statement: `classNameTokens_identifier_iff` — when the name of a class is an identifier, and what it is otherwise.
-/

namespace RazorLang

/-! ## Reserved words -/

namespace Keyword

variable {w : Text}

theorem reserved_induction {p : Text → Bool} (hall : reserved.all p = true) (h : isReserved w = true) : p w = true :=
  List.all_eq_true.mp hall w (List.contains_iff_mem.mp h)

theorem free_of_underscore (h : '_' ∈ w) : isReserved w = false := by
  rw [← Bool.not_eq_true]
  intro hreserved
  have hnone := reserved_induction (p := fun w => !w.contains '_') (by decide +kernel) hreserved
  rw [Bool.not_eq_true', ← Bool.not_eq_true, List.contains_iff_mem] at hnone
  exact hnone h

end Keyword

/-! ## Words -/

/-- The character of an identifier that stands for a character. -/
def identifierChar (c : Char) : Char := if Text.isLetter c || Text.isNumber c || c == '_' then c else '_'

theorem continuesIdentifier_identifierChar (c : Char) : Lexeme.continuesIdentifier (identifierChar c) = true := by
  unfold identifierChar
  split
  · next hc =>
    rwa [Bool.or_comm, ← Bool.or_assoc] at hc
  · rfl

theorem identifierChar_eq_self {c : Char} (h : identifierChar c ≠ '_') : identifierChar c = c := by
  unfold identifierChar at h ⊢
  split at h
  · next hc => rw [if_pos hc]
  · exact absurd rfl h

namespace Text

variable {v w : Text}

theorem IsWord.ne_nil (h : IsWord w) : w ≠ [] := by
  rintro rfl
  obtain ⟨c, hc, -⟩ := h.starts
  exact nomatch hc

theorem IsWord.append (hv : IsWord v) (hw : ∀ c ∈ w, Lexeme.continuesIdentifier c = true) : IsWord (v ++ w) := by
  obtain ⟨⟨c, hc, hstarts⟩, hcontinues⟩ := hv
  refine ⟨⟨c, ?_, hstarts⟩, ?_⟩
  · rw [List.head?_append, hc]
    rfl
  · exact fun d hd => (List.mem_append.mp hd).elim (hcontinues d) (hw d)

/-- Words with underscores between them are a word. -/
theorem IsWord.intercalate {ws : List Text} (hws : ∀ w ∈ ws, IsWord w) (hne : ws ≠ []) :
    IsWord (List.intercalate ['_'] ws) := by
  induction ws with
  | nil => exact absurd rfl hne
  | cons w ws ih =>
      -- The last word has no underscore behind it.
      have hw : IsWord w := hws w List.mem_cons_self
      cases ws with
      | nil => rwa [List.intercalate_singleton]
      | cons w' ws =>
          have hmore := ih (fun v hv => hws v (List.mem_cons_of_mem w hv)) (List.cons_ne_nil w' ws)
          rw [List.intercalate_cons_cons]
          refine (hw.append ?_).append hmore.continues
          rintro c hc
          obtain rfl := List.mem_singleton.mp hc
          rfl

end Text

namespace Resolution

/-- A name is kept from the first character on if an identifier can start with that, and stands behind an underscore
    otherwise. -/
theorem sanitize_cons (c : Char) (t : Text) :
    (Lexeme.startsIdentifier c = true ∧ sanitize (c :: t) = c :: t.map identifierChar) ∨
      sanitize (c :: t) = '_' :: (c :: t).map identifierChar := by
  unfold sanitize
  dsimp only
  split
  · next hc =>
    have hkept : (Text.isLetter c || Text.isNumber c || c == '_') = true := by
      rw [Bool.or_eq_true] at hc
      rw [Bool.or_eq_true, Bool.or_eq_true]
      exact hc.imp_left Or.inl
    refine .inl ⟨by rwa [Lexeme.startsIdentifier, Bool.or_comm], ?_⟩
    rw [List.map_cons, if_pos hkept]
    rfl
  · exact .inr rfl

/-- What a name cannot have becomes an underscore, so that without one nothing has changed. -/
theorem sanitize_eq_self {s : Text} (h : '_' ∉ sanitize s) : sanitize s = s := by
  cases s with
  | nil => rfl
  | cons c t =>
      rcases sanitize_cons c t with ⟨-, heq⟩ | heq
      · rw [heq] at h ⊢
        refine congrArg (c :: ·) ((List.map_congr_left fun d hd => ?_).trans (List.map_id t))
        refine identifierChar_eq_self fun hunderscore => h (List.mem_cons_of_mem c ?_)
        exact hunderscore ▸ List.mem_map_of_mem hd
      · rw [heq] at h
        exact absurd List.mem_cons_self h

/-- A segment names a reserved word only by being one. -/
theorem isReserved_sanitize (s : Text) : Keyword.isReserved (sanitize s) = Keyword.isReserved s := by
  cases hs : Keyword.isReserved s with
  | true =>
      have hsame := Keyword.reserved_induction (p := fun w => sanitize w == w) (by decide +kernel) hs
      rw [beq_iff_eq.mp hsame, hs]
  | false =>
      -- What has been changed has an underscore, and no reserved word has one.
      by_cases hunderscore : '_' ∈ sanitize s
      · exact Keyword.free_of_underscore hunderscore
      · rw [sanitize_eq_self hunderscore, hs]

/-- What is made of a name is a word. -/
theorem isWord_sanitize {s : Text} (hs : s ≠ []) : Text.IsWord (sanitize s) := by
  have hcontinues : ∀ t : Text, ∀ d ∈ t.map identifierChar, Lexeme.continuesIdentifier d = true :=
    fun t => List.forall_mem_map.mpr fun d _ => continuesIdentifier_identifierChar d
  cases s with
  | nil => exact absurd rfl hs
  | cons c t =>
      rcases sanitize_cons c t with ⟨hc, heq⟩ | heq
      · have hpart := Lexeme.continuesIdentifier_of_startsIdentifier hc
        rw [heq]
        exact ⟨⟨c, rfl, hc⟩, List.forall_mem_cons.mpr ⟨hpart, hcontinues t⟩⟩
      · rw [heq]
        exact ⟨⟨'_', rfl, rfl⟩, List.forall_mem_cons.mpr ⟨rfl, hcontinues (c :: t)⟩⟩

end Resolution

/-! ## Tokens of a word -/

/-- A word on its own is read as one token. -/
theorem Tokenizer.tokens_word (path : Option Text) (place : Location) {w : Text} (hw : w.IsWord) :
    ∃ t, (start .csharp path place w).tokens = [t] ∧ t.content = w ∧ t.kind = CSharp.lexemeKind .identifier w := by
  cases w with
  | nil => exact absurd rfl hw.ne_nil
  | cons c t =>
      have hcut : CSharp.cut c (t ++ []) = { kind := CSharp.lexemeKind .identifier (c :: t), more := t.length } :=
        CSharp.cut_word hw (fun x hx => nomatch hx)
      rw [List.append_nil] at hcut
      have hnext := next?_csharp (s := start .csharp path place (c :: t)) rfl rfl rfl hcut
      dsimp only at hnext
      rw [List.take_length, List.drop_length] at hnext
      rw [tokens_of_next?_eq_some hnext, tokens_of_next?_eq_none rfl]
      exact ⟨_, rfl, rfl, rfl⟩

/-! ## Paths -/

/-- The segments of a path that its class is named for: those of the path without its extension that are neither
    empty nor a dot nor a drive. -/
def namingSegments (path : Text) : List Text :=
  (Text.splitAll FileKind.isPathSeparator (dropExtension path)).filter fun s =>
    !s.isEmpty && s != ['.'] && s.getLast? != some ':'

/-- The segments of a path name a class: the last one of a component is not reserved, and a page has segments, of
    which a single one is not reserved. -/
def NamesClass (component : Bool) (segments : List Text) : Prop :=
  if component then ∀ s ∈ segments.getLast?, Keyword.isReserved s = false
  else segments ≠ [] ∧ ∀ s, segments = [s] → Keyword.isReserved s = false

theorem classNameParts_eq (path : Text) : classNameParts path = (namingSegments path).map Resolution.sanitize := rfl

theorem isWord_classNameParts {path p : Text} (h : p ∈ classNameParts path) : p.IsWord := by
  rw [classNameParts_eq] at h
  obtain ⟨s, hs, rfl⟩ := List.mem_map.mp h
  have hkept := (List.mem_filter.mp hs).2
  rw [Bool.and_eq_true, Bool.and_eq_true, Bool.not_eq_true', List.isEmpty_eq_false_iff] at hkept
  exact Resolution.isWord_sanitize hkept.1.1

theorem isWord_anonymousClass : Text.IsWord anonymousClass :=
  ⟨⟨'G', rfl, by decide +kernel⟩, List.all_eq_true.mp (by decide +kernel)⟩

theorem isReserved_anonymousClass : Keyword.isReserved anonymousClass = false := by decide

/-- A name of several segments has an underscore in it. -/
theorem isReserved_intercalate (parts : List Text) :
    Keyword.isReserved (List.intercalate ['_'] parts) = true ↔ ∃ p, parts = [p] ∧ Keyword.isReserved p = true := by
  match parts with
  | [] => exact iff_of_false (by decide) (fun ⟨_, h, _⟩ => nomatch h)
  | [p] =>
      rw [List.intercalate_singleton]
      exact ⟨fun h => ⟨p, rfl, h⟩, fun ⟨q, hq, h⟩ => List.singleton_inj.mp hq ▸ h⟩
  | p :: q :: parts =>
      refine iff_of_false ?_ (fun ⟨_, h, _⟩ => nomatch h)
      rw [Keyword.free_of_underscore]
      · decide
      · rw [List.intercalate_cons_cons]
        exact List.mem_append_left _ (List.mem_append_right _ List.mem_cons_self)

/-- The name that segments are joined to is reserved only if one segment is all of it. -/
theorem isReserved_segments (segments : List Text) :
    Keyword.isReserved (List.intercalate ['_'] (segments.map Resolution.sanitize)) = false ↔
      ∀ s, segments = [s] → Keyword.isReserved s = false := by
  rw [← Bool.not_eq_true, isReserved_intercalate]
  constructor
  · intro h s hs
    rw [← Resolution.isReserved_sanitize, ← Bool.not_eq_true]
    exact fun hreserved => h ⟨_, hs ▸ rfl, hreserved⟩
  · rintro h ⟨p, hp, hreserved⟩
    obtain ⟨s, hs, rfl⟩ := List.map_eq_singleton_iff.mp hp
    rw [Resolution.isReserved_sanitize, h s hs] at hreserved
    exact Bool.false_ne_true hreserved

/-- A component is named by a word. -/
theorem className_component (d : Source) :
    Text.IsWord (className d true) ∧ (Keyword.isReserved (className d true) = false ↔
      ∀ path ∈ d.relativePath, NamesClass true (namingSegments path)) := by
  unfold className
  cases d.relativePath with
  | none => exact ⟨isWord_anonymousClass, iff_of_true isReserved_anonymousClass fun _ h => nomatch h⟩
  | some path =>
      show Text.IsWord ((classNameParts path).getLast?.getD anonymousClass) ∧
        (Keyword.isReserved ((classNameParts path).getLast?.getD anonymousClass) = false ↔ _)
      have hwords := fun p (h : p ∈ (classNameParts path).getLast?) => isWord_classNameParts (List.mem_of_getLast? h)
      rw [classNameParts_eq, List.getLast?_map] at hwords ⊢
      simp only [Option.mem_def, Option.some.injEq, forall_eq']
      unfold NamesClass
      cases hlast : (namingSegments path).getLast? with
      | none => exact ⟨isWord_anonymousClass, iff_of_true isReserved_anonymousClass fun _ h => nomatch h⟩
      | some s =>
          rw [hlast] at hwords
          refine ⟨hwords _ rfl, ?_⟩
          show Keyword.isReserved (Resolution.sanitize s) = false ↔ ∀ t ∈ some s, Keyword.isReserved t = false
          rw [Resolution.isReserved_sanitize]
          exact ⟨fun h t ht => Option.some.inj ht ▸ h, fun h => h s rfl⟩

/-- A page is named by a word unless its path has no segment. -/
theorem className_page (d : Source) :
    if ∀ path ∈ d.relativePath, namingSegments path ≠ [] then
      Text.IsWord (className d false) ∧ (Keyword.isReserved (className d false) = false ↔
        ∀ path ∈ d.relativePath, NamesClass false (namingSegments path))
    else className d false = [] := by
  unfold className
  cases d.relativePath with
  | none =>
      rw [if_pos fun _ h => nomatch h]
      exact ⟨isWord_anonymousClass, iff_of_true isReserved_anonymousClass fun _ h => nomatch h⟩
  | some path =>
      simp only [Option.mem_def, Option.some.injEq, forall_eq']
      show if namingSegments path ≠ [] then Text.IsWord (List.intercalate ['_'] (classNameParts path)) ∧
        (Keyword.isReserved (List.intercalate ['_'] (classNameParts path)) = false ↔ _) else
        List.intercalate ['_'] (classNameParts path) = []
      split
      · next hne =>
        have hparts : classNameParts path ≠ [] := by rwa [classNameParts_eq, ne_eq, List.map_eq_nil_iff]
        refine ⟨Text.IsWord.intercalate (fun _ => isWord_classNameParts) hparts, ?_⟩
        rw [classNameParts_eq, isReserved_segments, NamesClass, if_neg (by decide), and_iff_right hne]
      · next hnil =>
        rw [classNameParts_eq, not_ne_iff.mp hnil]
        rfl

/-! ## Reading the name -/

/-- The tokens of C# that the name of the class for a source is read as. -/
def classNameTokens (d : Source) (component : Bool) : List Token :=
  (Tokenizer.ofSource .csharp (.anonymous (className d component)) 0).tokens

theorem classNameTokens_eq (d : Source) (component : Bool) :
    ∃ place, classNameTokens d component = (Tokenizer.start .csharp none place (className d component)).tokens :=
  ⟨_, congrArg Tokenizer.tokens (Tokenizer.ofSource_eq .csharp (u := []) rfl)⟩

/-- The name of a class that is a word is an identifier unless it is reserved. -/
theorem classNameTokens_word {d : Source} {component : Bool} (hword : Text.IsWord (className d component)) :
    ∃ t, classNameTokens d component = [t] ∧ t.content = className d component ∧
      t.kind = if Keyword.isReserved (className d component) then .keyword else .identifier := by
  obtain ⟨place, htokens⟩ := classNameTokens_eq d component
  rw [htokens]
  exact Tokenizer.tokens_word none place hword

theorem className_cases (d : Source) (component : Bool) :
    (component = true ∨ (∀ path ∈ d.relativePath, namingSegments path ≠ [])) ∧
      Text.IsWord (className d component) ∧ (Keyword.isReserved (className d component) = false ↔
        ∀ path ∈ d.relativePath, NamesClass component (namingSegments path)) ∨
    (component = false ∧ ∃ path ∈ d.relativePath, namingSegments path = []) ∧ className d component = [] := by
  cases component with
  | true => exact .inl ⟨.inl rfl, className_component d⟩
  | false =>
      have hpage := className_page d
      split at hpage
      · next hsome => exact .inl ⟨.inr hsome, hpage⟩
      · next hnone =>
        obtain ⟨path, hpath⟩ := not_forall.mp hnone
        obtain ⟨hmem, hnil⟩ := Classical.not_imp.mp hpath
        exact .inr ⟨⟨rfl, path, hmem, not_ne_iff.mp hnil⟩, hpage⟩

/-- The name of a class is read as one identifier exactly if the segments of its path name one. What it is otherwise
    is a keyword, or nothing at all for a page without segments in its path. -/
theorem classNameTokens_identifier_iff (d : Source) (component : Bool) :
    ((∃ t, classNameTokens d component = [t] ∧ t.kind = .identifier) ↔
      ∀ path ∈ d.relativePath, NamesClass component (namingSegments path)) ∧
    (classNameTokens d component = [] ↔ component = false ∧ ∃ path ∈ d.relativePath, namingSegments path = []) ∧
    ∀ t ∈ classNameTokens d component, classNameTokens d component = [t] ∧ t.content = className d component ∧
      (t.kind = .identifier ∨ t.kind = .keyword) := by
  rcases className_cases d component with ⟨hsegments, hword, hnames⟩ | ⟨⟨hpage, path, hpath, hnil⟩, hempty⟩
  · obtain ⟨t, htokens, hcontent, hkind⟩ := classNameTokens_word hword
    rw [htokens]
    refine ⟨?_, iff_of_false (List.cons_ne_nil t []) ?_, ?_⟩
    · rw [← hnames]
      constructor
      · rintro ⟨u, hu, hidentifier⟩
        obtain rfl := List.singleton_inj.mp hu
        rw [hkind] at hidentifier
        split at hidentifier
        · exact nomatch hidentifier
        · next hfree => exact Bool.not_eq_true _ ▸ hfree
      · intro hfree
        exact ⟨t, rfl, by rw [hkind, hfree]; rfl⟩
    · rintro ⟨hpage, path, hpath, hnil⟩
      rcases hsegments with hcomponent | hsome
      · exact Bool.false_ne_true (hpage.symm.trans hcomponent)
      · exact hsome path hpath hnil
    · intro u hu
      obtain rfl := List.mem_singleton.mp hu
      refine ⟨rfl, hcontent, ?_⟩
      rw [hkind]
      split
      · exact .inr rfl
      · exact .inl rfl
  · obtain ⟨place, htokens⟩ := classNameTokens_eq d component
    rw [htokens, hempty, Tokenizer.tokens_of_next?_eq_none rfl]
    refine ⟨iff_of_false (fun ⟨t, ht, _⟩ => nomatch ht) ?_, iff_of_true rfl ⟨hpage, path, hpath, hnil⟩, nofun⟩
    intro hall
    have hnames := hall path hpath
    rw [NamesClass, hpage, if_neg (by decide)] at hnames
    exact hnames.1 hnil

/-- The page at the root has no name where the component there has the one of `anonymousClass`, and a page of one
    reserved segment is named by a keyword. -/
theorem classNameTokens_root :
    classNameTokens (.ofFile [] "/") false = [] ∧
      (classNameTokens (.ofFile [] "/") true).map (fun t => (t.kind, t.content)) = [(.identifier, anonymousClass)] ∧
      (classNameTokens (.ofFile [] "default.cshtml") false).map (·.kind) = [.keyword] ∧
      (classNameTokens (.ofFile [] "default.razor") true).map (·.kind) = [.keyword] := by
  decide +kernel

end RazorLang
