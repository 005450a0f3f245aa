import RazorLang.Proofs.Text.Splitting
import RazorLang.Proofs.Tree.Coverage
import RazorLang.TagHelper.Resolution

/-!
# What the last line says

A page and its imports select tag helpers line by line, and so do they set the prefix that selects elements. Each
line is about some of the tag helpers, or gives a prefix, or says nothing because it is malformed, and of the lines
that say something about the same the last one decides (`scope_resolve_page`).

The resolution folds over labels on code. That they are what the lines of the directives say is a property of the
trees that the grammar builds (`Tree.Labeled`), and the rest is one lemma on folds whose steps either decide or change
nothing (`foldl_eq_iff`).
-/

namespace RazorLang

open RazorLang.Tree

/-! ## Steps that decide -/

section Decisions

variable {α β σ : Type}

/-- The last thing that decides on anything decides on a value. -/
def LastDecides (decides : α → σ → Prop) (things : List α) (value : σ) : Prop :=
  ∃ before a after, things = before ++ a :: after ∧ decides a value ∧ ∀ b ∈ after, ∀ v, ¬ decides b v

variable {decides : α → σ → Prop} {things : List α} {a : α} {value : σ}

theorem lastDecides_cons : LastDecides decides (a :: things) value ↔
    LastDecides decides things value ∨ decides a value ∧ ∀ b ∈ things, ∀ v, ¬ decides b v := by
  constructor
  · rintro ⟨before, b, after, hthings, hdecides, hnone⟩
    rcases List.cons_eq_append_iff.mp hthings with ⟨rfl, hafter⟩ | ⟨before', rfl, rfl⟩
    · obtain ⟨rfl, rfl⟩ := List.cons.inj hafter
      exact .inr ⟨hdecides, hnone⟩
    · exact .inl ⟨before', b, after, rfl, hdecides, hnone⟩
  · rintro (⟨before, b, after, rfl, hdecides, hnone⟩ | ⟨hdecides, hnone⟩)
    · exact ⟨a :: before, b, after, rfl, hdecides, hnone⟩
    · exact ⟨[], a, things, rfl, hdecides, hnone⟩

/-- A fold over what stands for some things, where each step takes the value that its thing decides on and keeps the
    one before if it decides on none: the last decision is the result, or the start if there is none. -/
theorem foldl_eq_iff {stands : α → β → Prop} {step : σ → β → σ}
    (hdecide : ∀ a b v, stands a b → decides a v → ∀ s, step s b = v)
    (hkeep : ∀ a b, stands a b → (∀ v, ¬ decides a v) → ∀ s, step s b = s) {bs : List β}
    (h : List.Forall₂ stands things bs) (s : σ) :
    bs.foldl step s = value ↔
      LastDecides decides things value ∨ s = value ∧ ∀ a ∈ things, ∀ v, ¬ decides a v := by
  -- What the first step makes of the start is the start for the rest.
  induction h generalizing s with
  | nil =>
      constructor
      · exact fun hs => .inr ⟨hs, fun a ha => absurd ha List.not_mem_nil⟩
      · rintro (⟨before, a, after, hnil, -⟩ | ⟨hs, -⟩)
        · exact absurd hnil.symm (List.append_ne_nil_of_right_ne_nil before (List.cons_ne_nil a after))
        · exact hs
  | @cons a b things bs hstands _ ih =>
      rw [List.foldl_cons, ih, lastDecides_cons, List.forall_mem_cons, or_assoc]
      refine or_congr_right ?_
      by_cases hsome : ∃ v, decides a v
      · obtain ⟨v, hv⟩ := hsome
        rw [hdecide a b v hstands hv s]
        constructor
        · rintro ⟨rfl, hnone⟩
          exact .inl ⟨hv, hnone⟩
        · rintro (⟨hvalue, hnone⟩ | ⟨-, hno, -⟩)
          -- One step has one result, so a thing decides on one value at most.
          · exact ⟨(hdecide a b v hstands hv s).symm.trans (hdecide a b value hstands hvalue s), hnone⟩
          · exact absurd hv (hno v)
      · have hno : ∀ v, ¬ decides a v := not_exists.mp hsome
        rw [hkeep a b hstands hno s]
        constructor
        · rintro ⟨hs, hnone⟩
          exact .inr ⟨hs, hno, hnone⟩
        · rintro (⟨hvalue, -⟩ | ⟨hs, -, hnone⟩)
          · exact absurd hvalue (hno value)
          · exact ⟨hs, hnone⟩

end Decisions

/-! ## Labels -/

namespace Resolution

/-- Labels that are not for tag helpers make no difference to a fold that passes over them. -/
theorem foldl_filter_isForHelpers {σ : Type} {step : σ → Label → σ}
    (hkeep : ∀ s label, label.isForHelpers = false → step s label = s) (labels : List Label) (s : σ) :
    (labels.filter Label.isForHelpers).foldl step s = labels.foldl step s := by
  rw [List.foldl_filter]
  congr 1
  funext s label
  split
  · rfl
  · next hlabel => exact (hkeep s label (Bool.eq_false_iff.mpr hlabel)).symm

theorem select_of_isForHelpers (h : TagHelper) (s : Bool) (label : Label) (hlabel : label.isForHelpers = false) :
    select h s label = s := by
  cases label <;> first | rfl | exact nomatch hlabel

theorem nextTagPrefix_of_isForHelpers (current : Option Text) (label : Label)
    (hlabel : label.isForHelpers = false) : nextTagPrefix current label = current := by
  cases label <;> first | rfl | exact nomatch hlabel

/-- A prefix of which something is reported changes nothing. -/
theorem nextTagPrefix_tagPrefix (current : Option Text) (value : Text) (diagnostics : List Diagnostic) :
    nextTagPrefix current (.tagPrefix value diagnostics) =
      if diagnostics = [] then if value = [] then none else some value else current := by
  simp only [nextTagPrefix, Bool.not_eq_true', List.isEmpty_eq_false_iff, ite_not, List.isEmpty_iff]

end Resolution

/-! ## Texts of lines -/

namespace Text

/-- One text is another one without the double quotes around it; without a quote at either end it is that text. -/
def IsUnquoted (inner t : Text) : Prop :=
  t = '"' :: (inner ++ ['"']) ∨ inner = t ∧ ∀ u, t ≠ '"' :: (u ++ ['"'])

theorem isUnquoted_iff {inner t : Text} : IsUnquoted inner t ↔ Grammar.unquote t = inner := by
  have hquoted {u : Text} : ((after? ['"'] t).bind (before? ['"'])) = some u ↔ t = '"' :: (u ++ ['"']) := by
    rw [Option.bind_eq_some_iff]
    constructor
    · rintro ⟨rest, hrest, hu⟩
      rw [after?_eq_some.mp hrest, before?_eq_some.mp hu, List.singleton_append]
    · rintro rfl
      exact ⟨u ++ ['"'], after?_append ['"'] _, before?_append u _⟩
  unfold Grammar.unquote
  cases hcut : (after? ['"'] t).bind (before? ['"']) with
  | some u =>
      have ht := hquoted.mp hcut
      rw [Option.getD_some]
      constructor
      · rintro (hinner | ⟨-, hno⟩)
        · exact List.append_cancel_right (List.cons.inj (ht.symm.trans hinner)).2
        · exact absurd ht (hno u)
      · rintro rfl
        exact .inl ht
  | none =>
      -- One quote alone is at both ends, but not around anything.
      have hno (u : Text) : t ≠ '"' :: (u ++ ['"']) := fun ht => nomatch hcut.symm.trans (hquoted.mpr ht)
      rw [Option.getD_none]
      constructor
      · rintro (hinner | ⟨rfl, -⟩)
        · exact absurd hinner (hno inner)
        · rfl
      · rintro rfl
        exact .inr ⟨rfl, hno⟩

end Text

namespace HelperLine

/-- The text of a line is a pattern and an assembly, neither of them empty, with the first comma between them;
    there may be double quotes around both. -/
def Targets (line : HelperLine) (pattern assembly : Text) : Prop :=
  ∃ inner lead rest, Text.IsUnquoted inner (Text.trim line.text) ∧ Text.trim inner = lead ++ ',' :: rest ∧
    ',' ∉ lead ∧ Text.trim lead = pattern ∧ Text.trim rest = assembly ∧ pattern ≠ [] ∧ assembly ≠ []

/-- A pattern that ends with a star is one for all names that begin with what is before it; another one is a name. -/
def Matches (pattern name : Text) : Prop :=
  (∃ lead, pattern = lead ++ ['*'] ∧ lead <+: name) ∨ (∀ lead, pattern ≠ lead ++ ['*']) ∧ pattern = name

/-- A well-formed line that adds or removes a tag helper, which may be one among others. -/
def IsAbout (line : HelperLine) (h : TagHelper) : Prop :=
  (line.directive = .addTagHelper ∨ line.directive = .removeTagHelper) ∧
    ∃ pattern, line.Targets pattern h.assembly ∧ Matches pattern h.name

/-- A line that sets the prefix to a text, perhaps to none at all. Lines with a character that is reported in a
    prefix do not. -/
def GivesPrefix (line : HelperLine) (value : Text) : Prop :=
  line.directive = .tagHelperPrefix ∧ Text.IsUnquoted value line.text ∧
    ∀ c ∈ value, Text.isSpace c = false ∧ c ∉ "!<>/?[]=\"'*@".toList

variable {line : HelperLine} {label : Label} {h : TagHelper}

theorem targets_iff {pattern assembly : Text} (span : Span) :
    line.Targets pattern assembly ↔ (Grammar.lookupText line.text span).target = some (pattern, assembly) := by
  have hcomma {u v t : Text} : Text.splitFirst? (· == ',') t = some (u, v) ↔ t = u ++ ',' :: v ∧ ',' ∉ u := by
    rw [Text.splitFirst?_eq_some]
    constructor
    · rintro ⟨c, rfl, hc, hu⟩
      exact ⟨by rw [beq_iff_eq.mp hc], fun hmem => nomatch (hu ',' hmem)⟩
    · rintro ⟨rfl, hu⟩
      exact ⟨',', rfl, rfl, Text.beq_of_not_mem hu⟩
  simp only [Targets, Text.isUnquoted_iff, Grammar.lookupText, Option.filter_eq_some_iff, Option.map_eq_some_iff,
    Prod.exists, Prod.mk.injEq, hcomma, Bool.and_eq_true, Bool.not_eq_true', List.isEmpty_eq_false_iff]
  constructor
  · rintro ⟨_, lead, rest, rfl, hinner, hlead, rfl, rfl, hpattern, hassembly⟩
    exact ⟨⟨lead, rest, ⟨hinner, hlead⟩, rfl, rfl⟩, hpattern, hassembly⟩
  · rintro ⟨⟨lead, rest, ⟨hinner, hlead⟩, rfl, rfl⟩, hpattern, hassembly⟩
    exact ⟨_, lead, rest, rfl, hinner, hlead, rfl, rfl, hpattern, hassembly⟩

theorem matches_iff {pattern name : Text} :
    Matches pattern name ↔ Resolution.matchesPattern pattern name = true := by
  unfold Resolution.matchesPattern
  cases hcut : Text.before? ['*'] pattern with
  | some lead =>
      have hpattern := Text.before?_eq_some.mp hcut
      rw [List.isPrefixOf_iff_prefix]
      constructor
      · rintro (⟨u, hu, hname⟩ | ⟨hno, -⟩)
        · rwa [List.append_cancel_right (hpattern.symm.trans hu)]
        · exact absurd hpattern (hno lead)
      · exact fun hname => .inl ⟨lead, hpattern, hname⟩
  | none =>
      have hno (lead : Text) : pattern ≠ lead ++ ['*'] := fun h =>
        nomatch hcut.symm.trans (Text.before?_eq_some.mpr h)
      rw [beq_iff_eq]
      constructor
      · rintro (⟨lead, hlead, -⟩ | ⟨-, hname⟩)
        · exact absurd hlead (hno lead)
        · exact hname
      · exact fun hname => .inr ⟨hno, hname⟩

theorem isAbout_iff (hline : line.directive = .addTagHelper ∨ line.directive = .removeTagHelper) (span : Span) :
    line.IsAbout h ↔ Resolution.isAbout (Grammar.lookupText line.text span) h = true := by
  simp only [IsAbout, and_iff_right hline, targets_iff span, matches_iff]
  unfold Resolution.isAbout
  cases (Grammar.lookupText line.text span).target with
  | none => exact iff_of_false (fun ⟨_, hnone, _⟩ => nomatch hnone) Bool.false_ne_true
  | some target =>
      obtain ⟨pattern, assembly⟩ := target
      rw [Bool.and_eq_true, beq_iff_eq]
      constructor
      · rintro ⟨_, htarget, hmatches⟩
        obtain ⟨rfl, rfl⟩ := Prod.mk.inj (Option.some.inj htarget)
        exact ⟨rfl, hmatches⟩
      · rintro ⟨rfl, hmatches⟩
        exact ⟨pattern, rfl, hmatches⟩

/-! ## What a line makes of what was before it -/

/-- A line about a tag helper decides whether it is selected. -/
def Selects (h : TagHelper) (line : HelperLine) (selected : Bool) : Prop :=
  line.IsAbout h ∧ selected = decide (line.directive = .addTagHelper)

theorem select_of_selects {selected : Bool} (hgives : line.Gives label) (hselects : Selects h line selected)
    (s : Bool) : Resolution.select h s label = selected := by
  obtain ⟨span, rfl⟩ := hgives
  obtain ⟨habout, rfl⟩ := hselects
  have hmodel := (isAbout_iff habout.1 span).mp habout
  rcases habout.1 with hline | hline
  · rw [hline, Grammar.tagHelperLabel, Resolution.select, hmodel, Bool.or_true]
    rfl
  · rw [hline, Grammar.tagHelperLabel, Resolution.select, hmodel, Bool.not_true, Bool.and_false]
    rfl

theorem select_of_none (hgives : line.Gives label) (hnone : ∀ v, ¬ Selects h line v) (s : Bool) :
    Resolution.select h s label = s := by
  obtain ⟨span, rfl⟩ := hgives
  have hnot (hline : line.directive = .addTagHelper ∨ line.directive = .removeTagHelper) :
      Resolution.isAbout (Grammar.lookupText line.text span) h = false :=
    Bool.eq_false_iff.mpr fun hmodel => hnone _ ⟨(isAbout_iff hline span).mpr hmodel, rfl⟩
  rcases line.directive_cases with hline | hline | hline
  · rw [hline, Grammar.tagHelperLabel, Resolution.select, hnot (.inl hline), Bool.or_false]
  · rw [hline, Grammar.tagHelperLabel, Resolution.select, hnot (.inr hline), Bool.not_false, Bool.and_true]
  · rw [hline]
    rfl

/-- A line that gives a prefix decides on it; there is none if it is empty. -/
def Sets (line : HelperLine) (found : Option Text) : Prop :=
  ∃ value, line.GivesPrefix value ∧ found = if value = [] then none else some value

/-- Of a line for the prefix nothing is reported if it gives one, and only then. -/
theorem labelDiagnostics_eq_nil_iff (hgives : line.Gives label) (hline : line.directive = .tagHelperPrefix) :
    Resolution.labelDiagnostics label = [] ↔ line.GivesPrefix (Grammar.unquote line.text) := by
  obtain ⟨span, rfl⟩ := hgives
  rw [hline]
  show List.map _ (Option.toList _) = [] ↔ _
  rw [List.map_eq_nil_iff, Option.toList_eq_nil_iff, List.find?_eq_none, GivesPrefix, and_iff_right hline,
    and_iff_right (Text.isUnquoted_iff.mpr rfl)]
  refine forall₂_congr fun c _ => ?_
  rw [Grammar.isInvalidInTagPrefix, Bool.or_eq_true, not_or, Bool.not_eq_true, List.contains_iff_mem]

theorem nextTagPrefix_line (hgives : line.Gives label) (hline : line.directive = .tagHelperPrefix)
    (current : Option Text) : Resolution.nextTagPrefix current label =
      if Resolution.labelDiagnostics label = [] then
        if Grammar.unquote line.text = [] then none else some (Grammar.unquote line.text)
      else current := by
  obtain ⟨span, rfl⟩ := hgives
  rw [hline]
  exact Resolution.nextTagPrefix_tagPrefix current _ _

theorem sets_some_iff {value : Text} : line.Sets (some value) ↔ value ≠ [] ∧ line.GivesPrefix value := by
  constructor
  · rintro ⟨given, hgiven, hvalue⟩
    split at hvalue
    · exact nomatch hvalue
    · next hne =>
      obtain rfl := Option.some.inj hvalue
      exact ⟨hne, hgiven⟩
  · rintro ⟨hne, hgiven⟩
    exact ⟨value, hgiven, (if_neg hne).symm⟩

theorem nextTagPrefix_of_sets {found : Option Text} (hgives : line.Gives label) (hsets : line.Sets found)
    (current : Option Text) : Resolution.nextTagPrefix current label = found := by
  obtain ⟨value, hprefix, rfl⟩ := hsets
  obtain rfl := Text.isUnquoted_iff.mp hprefix.2.1
  rw [nextTagPrefix_line hgives hprefix.1, if_pos ((labelDiagnostics_eq_nil_iff hgives hprefix.1).mpr hprefix)]

theorem nextTagPrefix_of_none (hgives : line.Gives label) (hnone : ∀ v, ¬ line.Sets v) (current : Option Text) :
    Resolution.nextTagPrefix current label = current := by
  rcases line.directive_cases with hline | hline | hline
  · obtain ⟨span, rfl⟩ := hgives
    rw [hline]
    rfl
  · obtain ⟨span, rfl⟩ := hgives
    rw [hline]
    rfl
  · rw [nextTagPrefix_line hgives hline, if_neg]
    exact fun hsound => hnone _ ⟨_, (labelDiagnostics_eq_nil_iff hgives hline).mp hsound, rfl⟩

end HelperLine

/-! ## Lines of documents -/

namespace ParsedDocument

/-- The lines for tag helpers of a document, in the order of the source. -/
def helperLines (p : ParsedDocument) : List HelperLine := p.directives.filterMap fun d => d.2.line?

theorem helperLines_eq (p : ParsedDocument) : p.helperLines = lines p.root.children := by
  rw [helperLines, directives, List.filterMap_filterMap, lines]
  refine List.filterMap_congr fun t _ => ?_
  rw [line?]
  cases t.directive? with
  | none => rfl
  | some use => rfl

/-- Of the labels that a document hands to the resolution, those of lines for tag helpers. -/
theorem helperLabels_chunks (p : ParsedDocument) :
    (p.chunks.map Prod.snd).filter Label.isForHelpers = helperLabels p.root.children := by
  rw [chunks, List.map_filterMap, List.filter_filterMap, helperLabels]
  refine List.filterMap_congr fun t _ => ?_
  cases t with
  | token t => rfl
  | node kind span label children =>
      by_cases hkind : kind = .statementCode
      · subst hkind
        cases label with
        | none => rfl
        | some label => cases label <;> rfl
      · cases kind <;> first | exact absurd rfl hkind | rfl

theorem labeled_children (kind : FileKind) (d : Source) : Labeled (parse kind d).root.children := by
  obtain ⟨hlines, hlabels⟩ := lines_unlabeled .document (parse kind d).root.span (parse kind d).root.children
  rw [Labeled, ← hlines, ← hlabels]
  exact (parsed_root kind d).labeled

/-- The labels of the lines of some documents, one for each line. -/
theorem forall₂_gives {documents : List ParsedDocument} (h : ∀ p ∈ documents, ∃ kind d, p = parse kind d) :
    List.Forall₂ HelperLine.Gives (documents.flatMap helperLines)
      (((documents.flatMap chunks).map Prod.snd).filter Label.isForHelpers) := by
  induction documents with
  | nil => exact .nil
  | cons p documents ih =>
      obtain ⟨⟨kind, d, rfl⟩, hdocuments⟩ := List.forall_mem_cons.mp h
      rw [List.flatMap_cons, List.flatMap_cons, List.map_append, List.filter_append, helperLabels_chunks,
        helperLines_eq]
      exact List.rel_append (labeled_children kind d) (ih hdocuments)

end ParsedDocument

/-! ## The last line -/

namespace Resolution

variable {lines : List HelperLine} {labels : List Label}

/-- A tag helper is in scope of a page if the last line about it is one that adds it. -/
theorem foldl_select (hlabels : List.Forall₂ HelperLine.Gives lines (labels.filter Label.isForHelpers))
    (h : TagHelper) : labels.foldl (select h) false = true ↔
      ∃ before line after, lines = before ++ line :: after ∧ line.directive = .addTagHelper ∧ line.IsAbout h ∧
        ∀ other ∈ after, ¬ other.IsAbout h := by
  have hfold : (labels.filter Label.isForHelpers).foldl (select h) false = true ↔
      LastDecides (HelperLine.Selects h) lines true ∨
        false = true ∧ ∀ line ∈ lines, ∀ v, ¬ HelperLine.Selects h line v := by
    refine foldl_eq_iff ?_ ?_ hlabels false
    · exact fun line label v => HelperLine.select_of_selects
    · exact fun line label => HelperLine.select_of_none
  -- Nothing is in scope at the start, so a tag helper that is in scope has been decided on.
  rw [← foldl_filter_isForHelpers (select_of_isForHelpers h), hfold,
    or_iff_left fun hno => Bool.false_ne_true hno.1]
  refine exists₃_congr fun before line after => and_congr_right fun _ => ?_
  constructor
  · rintro ⟨⟨habout, hadds⟩, hlast⟩
    exact ⟨of_decide_eq_true hadds.symm, habout, fun other hother h => hlast other hother _ ⟨h, rfl⟩⟩
  · rintro ⟨hadds, habout, hlast⟩
    exact ⟨⟨habout, (decide_eq_true hadds).symm⟩, fun other hother _ h => hlast other hother h.1⟩

/-- The prefix of a page is the one that the last line with a prefix gives, unless it is empty. -/
theorem foldl_nextTagPrefix (hlabels : List.Forall₂ HelperLine.Gives lines (labels.filter Label.isForHelpers))
    (value : Text) : labels.foldl nextTagPrefix none = some value ↔ value ≠ [] ∧
      ∃ before line after, lines = before ++ line :: after ∧ line.GivesPrefix value ∧
        ∀ other ∈ after, ∀ v, ¬ other.GivesPrefix v := by
  have hfold : (labels.filter Label.isForHelpers).foldl nextTagPrefix none = some value ↔
      LastDecides HelperLine.Sets lines (some value) ∨
        none = some value ∧ ∀ line ∈ lines, ∀ v, ¬ line.Sets v := by
    refine foldl_eq_iff ?_ ?_ hlabels none
    · exact fun line label v => HelperLine.nextTagPrefix_of_sets
    · exact fun line label => HelperLine.nextTagPrefix_of_none
  rw [← foldl_filter_isForHelpers nextTagPrefix_of_isForHelpers, hfold, or_iff_left fun hno => nomatch hno.1]
  constructor
  · rintro ⟨before, line, after, hlines, hline, hlast⟩
    obtain ⟨hne, hgives⟩ := HelperLine.sets_some_iff.mp hline
    exact ⟨hne, before, line, after, hlines, hgives, fun other hother v h => hlast other hother _ ⟨v, h, rfl⟩⟩
  · rintro ⟨hne, before, line, after, hlines, hgives, hlast⟩
    refine ⟨before, line, after, hlines, HelperLine.sets_some_iff.mpr ⟨hne, hgives⟩, ?_⟩
    rintro other hother _ ⟨v, h, -⟩
    exact hlast other hother v h

end Resolution

/-- Of a page and its imports, outermost first, the last well-formed line about a tag helper decides whether it is
    in scope, and the last line that gives a prefix decides on the prefix; there is none if that one is empty. The
    tag helpers in scope stand as they do among those that are known. -/
theorem scope_resolve_page (d : Source) (imports : List (FileKind × Source)) (known : List TagHelper) (o : Options) :
    let documents := imports.map (fun i => ParsedDocument.parse i.1 i.2)
    let lines := (documents ++ [ParsedDocument.parse .legacy d]).flatMap ParsedDocument.helperLines
    let scope := (resolve (.parse .legacy d) documents known o).scope
    (∃ selected : TagHelper → Bool, scope.helpers = known.filter selected ∧
      ∀ h, selected h = true ↔ ∃ before line after, lines = before ++ line :: after ∧
        line.directive = .addTagHelper ∧ line.IsAbout h ∧ ∀ other ∈ after, ¬ other.IsAbout h) ∧
    ∀ value, scope.tagPrefix = some value ↔ value ≠ [] ∧
      ∃ before line after, lines = before ++ line :: after ∧ line.GivesPrefix value ∧
        ∀ other ∈ after, ∀ v, ¬ other.GivesPrefix v := by
  intro documents lines scope
  have hparsed : ∀ p ∈ documents ++ [ParsedDocument.parse .legacy d],
      ∃ kind d, p = ParsedDocument.parse kind d := by
    intro p hp
    rcases List.mem_append.mp hp with hp | hp
    · obtain ⟨i, -, rfl⟩ := List.mem_map.mp hp
      exact ⟨i.1, i.2, rfl⟩
    · exact ⟨.legacy, d, List.mem_singleton.mp hp⟩
  have hlabels := ParsedDocument.forall₂_gives hparsed
  exact ⟨⟨_, rfl, Resolution.foldl_select hlabels⟩, Resolution.foldl_nextTagPrefix hlabels⟩

/-- The page removes one of the tag helpers that its import adds. -/
example : (resolve (.parse .legacy (.anonymous "@removeTagHelper A.X, A\n"))
      [.parse .legacy (.anonymous "@addTagHelper *, A\n@tagHelperPrefix t:\n")]
      [{ name := "A.X".toList, assembly := "A".toList }, { name := "A.Y".toList, assembly := "A".toList }]
      default).scope =
    ⟨some "t:".toList, [{ name := "A.Y".toList, assembly := "A".toList }]⟩ := by
  decide +kernel

end RazorLang
