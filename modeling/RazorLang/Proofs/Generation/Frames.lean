import RazorLang.Proofs.Generation.Balance
import RazorLang.Proofs.Generation.Operations

/-!
# Frames of a component

The body of a component builds a tree of frames by calls on a builder; inside a fragment the builder is the
fragment's own. `readFrames` reads these calls off the instructions that print the body, and `FrameCall.step?`
follows which frames are open, rejecting a call on any builder but the one of the innermost frame and a close
that does not match it. Main statement: `Emission.wellFormed_printAll` — the calls of emissions that close what
they open do so too, and are numbered without gaps. The route: what each emission is read as, what its calls do to
the open frames (`Emission.tracks_print`), and an induction over the emissions.
-/

namespace RazorLang

open Text

/-! ## Calls -/

/-- What one call opens and another one closes. -/
inductive FrameKind where
  | element
  | component
  | fragment
  deriving DecidableEq, Repr

/-- What the body of a component does with a builder. -/
inductive FrameCall where
  | opens (kind : FrameKind) (builder : Text) (sequence : Nat)
  | closes (kind : FrameKind) (builder : Text)
  /-- Adds an attribute, content, markup or the capture of a reference. -/
  | adds (builder : Text) (sequence : Nat)
  | setsKey (builder : Text)
  /-- Adds an attribute that is a fragment: a function of a builder of its own. -/
  | opensFragment (builder : Text) (sequence : Nat) (inner : Text)
  | closesFragment
  deriving DecidableEq, Repr

/-- A frame that is open, with the builder for what is inside it. -/
structure OpenFrame where
  kind : FrameKind
  builder : Text
  deriving DecidableEq, Repr

namespace FrameCall

/-- The sequence number that a call gives its frame. -/
def sequence? : FrameCall → Option Nat
  | opens _ _ sequence | adds _ sequence | opensFragment _ sequence _ => some sequence
  | closes .. | setsKey _ | closesFragment => none

/-- The builder of the innermost frame, which is the method's own where no frame is open. -/
def builderIn : List OpenFrame → Text
  | [] => "__builder"
  | f :: _ => f.builder

/-- The frames that are open behind a call, unless it is on another builder than that of the innermost frame
    or closes another frame than that. -/
def step? (frames : List OpenFrame) : FrameCall → Option (List OpenFrame)
  | opens kind builder _ =>
    if builder = builderIn frames then some (⟨kind, builder⟩ :: frames) else none
  | closes kind builder => if frames.head? = some ⟨kind, builder⟩ then some frames.tail else none
  | adds builder _ | setsKey builder => if builder = builderIn frames then some frames else none
  | opensFragment builder _ inner =>
    if builder = builderIn frames then some (⟨.fragment, inner⟩ :: frames) else none
  | closesFragment =>
    if frames.head?.map (·.kind) = some .fragment then some frames.tail else none

/-! ## Reading printed code -/

/-- The number that a text starts with. -/
def numberAt? (t : Text) : Option Nat :=
  match t.takeWhile Char.isDigit with
  | [] => none
  | digits => some (Nat.ofDigitChars 10 digits 0)

/-- The parameter of the fragment that an attribute is, read from what follows its sequence number. -/
def parameter? (t : Text) : Option Text := do
  let '"' :: rest ← after? ", " t | none
  let (_, behind) ← readLiteral? rest
  before? ") => \x7b" (← after? (", (" ++ componentsSpace ++ ".RenderFragment)((") behind)

/-- The methods that add a frame without opening it. -/
def adders : List Text :=
  ["AddAttribute", "AddContent", "AddMarkupContent", "AddElementReferenceCapture",
    "AddComponentReferenceCapture"]

/-- The call of a method of a builder, read from what follows the method's name. -/
def ofMethod? (builder method behind : Text) : Option FrameCall := do
  if method = "OpenComponent".toList then
    let (_, arguments) ← splitLast? (· == '(') behind
    return .opens .component builder (← numberAt? arguments)
  let arguments ← after? "(" behind
  if method = "OpenElement".toList then return .opens .element builder (← numberAt? arguments)
  if method = "CloseElement".toList then return .closes .element builder
  if method = "CloseComponent".toList then return .closes .component builder
  if method = "SetKey".toList then return .setsKey builder
  if method ∈ adders then
    let sequence ← numberAt? arguments
    match parameter? (arguments.dropWhile Char.isDigit) with
    | some inner => return .opensFragment builder sequence inner
    | none => return .adds builder sequence
  none

/-- A printed text is a call on a builder. -/
def isOnBuilder (t : Text) : Bool := "__builder".toList.isPrefixOf t

/-- A printed text is a call on a builder or the end of a fragment. -/
def isCall (t : Text) : Bool := isOnBuilder t || t == ['\x7d']

/-- The call that a text is. -/
def ofText? (t : Text) : Option FrameCall :=
  if t = ['\x7d'] then some .closesFragment
  else do
    let rest ← after? "__builder" t
    let call ← after? "." (rest.dropWhile Char.isDigit)
    ofMethod? ("__builder" ++ rest.takeWhile Char.isDigit) (call.takeWhile Char.isAlpha)
      (call.dropWhile Char.isAlpha)

end FrameCall

/-- The text that an instruction writes of its own. -/
def Print.text? : Print → Option Text
  | write t | line t => some t
  | _ => none

/-- The calls that some instructions print, unless one of them cannot be read. Code of the user is not one of
    them. -/
def readFrames (ps : List Print) : Option (List FrameCall) :=
  ((ps.filterMap Print.text?).filter FrameCall.isCall).mapM FrameCall.ofText?

theorem readFrames_append {ps qs : List Print} {calls later : List FrameCall}
    (h : readFrames ps = some calls) (h' : readFrames qs = some later) :
    readFrames (ps ++ qs) = some (calls ++ later) := by
  unfold readFrames at *
  rw [List.filterMap_append, List.filter_append, List.mapM_append, h, h']
  rfl

/-! ## What calls are read as -/

theorem isDigit_ofNat (n : Nat) : ∀ c ∈ ofNat n, c.isDigit = true :=
  fun _ hc => Nat.isDigit_of_mem_toDigits (by decide) (by decide) hc

namespace FrameCall

theorem numberAt?_ofNat (n : Nat) {c : Char} (hc : c.isDigit = false) (rest : Text) :
    numberAt? (ofNat n ++ c :: rest) = some n := by
  rw [numberAt?, (takeWhile_append_cons (isDigit_ofNat n) hc rest).1]
  cases hdigits : ofNat n with
  | nil => exact absurd hdigits (by simp [ofNat])
  | cons d digits =>
      show some (Nat.ofDigitChars 10 (d :: digits) 0) = some n
      rw [← hdigits, ofNat, Nat.ofDigitChars_ten_toDigits]

/-- The name of a builder ends in its number. -/
theorem builderAt_eq (n : Nat) :
    ∃ digits, (∀ c ∈ digits, c.isDigit = true) ∧ BodyState.builderAt n = "__builder" ++ digits := by
  cases n with
  | zero => exact ⟨[], by simp, rfl⟩
  | succ n => exact ⟨_, isDigit_ofNat (n + 2), rfl⟩

/-- A call on a builder is read as the method's. -/
theorem ofText?_builder (n : Nat) {method : Text} (hmethod : method.all Char.isAlpha = true)
    {c : Char} (hc : c.isAlpha = false) (behind : Text) :
    ofText? (BodyState.builderAt n ++ '.' :: (method ++ c :: behind)) =
      ofMethod? (BodyState.builderAt n) method (c :: behind) := by
  obtain ⟨digits, hdigits, hbuilder⟩ := builderAt_eq n
  have hnumber := takeWhile_append_cons hdigits (c := '.') rfl (method ++ c :: behind)
  have hname := takeWhile_append_cons (List.all_eq_true.mp hmethod) hc behind
  rw [hbuilder, List.append_assoc, ofText?, if_neg (by simp), after?_append]
  show (after? "." (List.dropWhile _ _)).bind _ = _
  rw [hnumber.1, hnumber.2]
  show (after? "." ("." ++ (method ++ c :: behind))).bind _ = _
  rw [after?_append]
  show ofMethod? _ _ _ = _
  rw [hname.1, hname.2]

theorem ofText?_call (s : BodyState) {method : Text} (hmethod : method.all Char.isAlpha = true)
    (behind : Text) :
    ofText? (s.call method ++ behind) = ofMethod? s.builder method ("(" ++ ofNat s.sequence ++ behind) := by
  have := ofText?_builder s.fragments hmethod (c := '(') rfl (ofNat s.sequence ++ behind)
  simpa [BodyState.call, BodyState.builder] using this

/-- A call of a method that adds a frame, read from what follows its sequence number. -/
theorem ofText?_adder (s : BodyState) {method : Text} (hmethod : method ∈ adders) (behind : Text) :
    ofText? (s.call method ++ (", " ++ behind)) =
      match parameter? (", " ++ behind) with
      | some inner => some (.opensFragment s.builder s.sequence inner)
      | none => some (.adds s.builder s.sequence) := by
  have halpha : ∀ method ∈ adders, method.all Char.isAlpha = true := by decide
  have hother : ∀ method ∈ adders, method ≠ "OpenComponent".toList ∧ method ≠ "OpenElement".toList ∧
      method ≠ "CloseElement".toList ∧ method ≠ "CloseComponent".toList ∧
      method ≠ "SetKey".toList := by decide
  obtain ⟨h₁, h₂, h₃, h₄, h₅⟩ := hother method hmethod
  have hnumber : numberAt? (ofNat s.sequence ++ (", " ++ behind)) = some s.sequence :=
    numberAt?_ofNat s.sequence rfl (' ' :: behind)
  have hrest : (ofNat s.sequence ++ (", " ++ behind)).dropWhile Char.isDigit = ", " ++ behind :=
    (takeWhile_append_cons (isDigit_ofNat s.sequence) rfl (' ' :: behind)).2
  rw [ofText?_call s (halpha method hmethod), ofMethod?, if_neg h₁, List.append_assoc, after?_append]
  simp only [Option.bind_eq_bind, Option.bind_some, if_neg h₂, if_neg h₃, if_neg h₄, if_neg h₅,
    if_pos hmethod, hnumber, hrest]
  cases parameter? (", " ++ behind) <;> rfl

/-- A call behind whose number stands no string literal adds a frame. -/
theorem ofText?_adds (s : BodyState) {method : Text} (hmethod : method ∈ adders) {behind : Text}
    (h : parameter? (", " ++ behind) = none) :
    ofText? (s.call method ++ (", " ++ behind)) = some (.adds s.builder s.sequence) := by
  rw [ofText?_adder s hmethod, h]

theorem parameter?_stringLiteral (t tail : Text) :
    parameter? (", " ++ (stringLiteral t ++ tail)) =
      (after? (", (" ++ componentsSpace ++ ".RenderFragment)((") tail).bind (before? ") => \x7b") := by
  have htext : stringLiteral t ++ tail = '"' :: (t.flatMap literalChar ++ '"' :: tail) := by
    simp [stringLiteral]
  rw [htext, parameter?, after?_append]
  show (readLiteral? (t.flatMap literalChar ++ '"' :: tail)).bind _ = _
  rw [readLiteral?_flatMap]
  rfl

/-- A call with a string literal behind its number adds a frame, unless a fragment follows the literal. -/
theorem ofText?_adds_stringLiteral (s : BodyState) {method : Text} (hmethod : method ∈ adders)
    (t : Text) {tail : Text}
    (h : after? (", (" ++ componentsSpace ++ ".RenderFragment)((") tail = none) :
    ofText? (s.call method ++ ", " ++ stringLiteral t ++ tail) = some (.adds s.builder s.sequence) := by
  rw [List.append_assoc, List.append_assoc]
  exact ofText?_adds s hmethod (by rw [parameter?_stringLiteral, h]; rfl)

theorem ofText?_opensFragment (s : BodyState) (name inner : Text) :
    ofText? (s.call "AddAttribute" ++ ", " ++ stringLiteral name ++ ", (" ++ componentsSpace ++
      ".RenderFragment)((" ++ inner ++ ") => \x7b") =
      some (.opensFragment s.builder s.sequence inner) := by
  have hparameter : parameter? (", " ++ (stringLiteral name ++
      ((", (" ++ componentsSpace ++ ".RenderFragment)((") ++ (inner ++ ") => \x7b")))) = some inner := by
    rw [parameter?_stringLiteral, after?_append]
    exact before?_append inner ") => \x7b"
  have hmethod : "AddAttribute".toList ∈ adders := by decide
  simp only [List.append_assoc] at hparameter ⊢
  rw [ofText?_adder s hmethod, hparameter]

theorem ofText?_openElement (s : BodyState) (behind : Text) :
    ofText? (s.call "OpenElement" ++ ',' :: behind) = some (.opens .element s.builder s.sequence) := by
  rw [ofText?_call s (by decide), ofMethod?, if_neg (by decide), List.append_assoc, after?_append]
  simp only [Option.bind_eq_bind, Option.bind_some, if_true,
    numberAt?_ofNat s.sequence (c := ',') rfl behind]
  rfl

theorem ofText?_openComponent (s : BodyState) (type : Text) :
    ofText? (s.call ("OpenComponent<global::" ++ type ++ ">") ++ ");") =
      some (.opens .component s.builder s.sequence) := by
  have htext : s.call ("OpenComponent<global::" ++ type ++ ">") ++ ");" =
      BodyState.builderAt s.fragments ++ '.' :: ("OpenComponent" ++
        '<' :: ("global::" ++ type ++ ">" ++ '(' :: (ofNat s.sequence ++ ");"))) := by
    simp [BodyState.call, BodyState.builder]
  -- a type may have parentheses in it, so the number is looked for from the end
  have harguments : ∀ c ∈ ofNat s.sequence ++ ");", (c == '(') = false := by
    intro c hc
    refine beq_false_of_ne fun heq => ?_
    rw [heq] at hc
    rcases List.mem_append.mp hc with hc | hc
    · exact absurd (isDigit_ofNat s.sequence _ hc) (by decide)
    · exact absurd hc (by decide)
  rw [htext, ofText?_builder s.fragments (by decide) (by decide), ofMethod?, if_pos rfl,
    ← List.cons_append]
  show (splitLast? (· == '(') (('<' :: ("global::" ++ type ++ ">")) ++ '(' :: _)).bind _ = _
  rw [splitLast?_append rfl _ harguments]
  show (numberAt? (ofNat s.sequence ++ ')' :: ";")).bind _ = _
  rw [numberAt?_ofNat _ rfl]
  rfl

theorem ofText?_closeElement (s : BodyState) :
    ofText? (s.builder ++ ".CloseElement();") = some (.closes .element s.builder) := by
  have hmethod : List.all ("CloseElement" : Text) Char.isAlpha = true := rfl
  exact ofText?_builder s.fragments hmethod rfl ");"

theorem ofText?_closeComponent (s : BodyState) :
    ofText? (s.builder ++ ".CloseComponent();") = some (.closes .component s.builder) := by
  have hmethod : List.all ("CloseComponent" : Text) Char.isAlpha = true := rfl
  exact ofText?_builder s.fragments hmethod rfl ");"

theorem ofText?_setKey (s : BodyState) :
    ofText? (s.builder ++ ".SetKey(") = some (.setsKey s.builder) := by
  have hmethod : List.all ("SetKey" : Text) Char.isAlpha = true := rfl
  exact ofText?_builder s.fragments hmethod rfl []

theorem isCall_of_ofText? {t : Text} {call : FrameCall} (h : ofText? t = some call) :
    isCall t = true := by
  unfold isCall isOnBuilder
  by_cases hbrace : t = ['\x7d']
  · rw [hbrace]
    rfl
  · rw [ofText?, if_neg hbrace, after?] at h
    split at h
    · next hleads => rw [hleads, Bool.true_or]
    · exact absurd h (Option.some_ne_none call).symm

end FrameCall

/-- Some instructions write no call. -/
def Print.Silent (ps : List Print) : Prop :=
  ∀ t ∈ ps.filterMap Print.text?, FrameCall.isCall t = false

namespace Print

theorem silent_nil : Silent [] := fun _ ht => absurd ht List.not_mem_nil

/-- An instruction without a text writes no call. -/
theorem silent_single {p : Print} (h : p.text? = none) : Silent [p] := by
  intro t ht
  rw [List.filterMap_cons_none h] at ht
  exact absurd ht List.not_mem_nil

theorem silent_line {t : Text} (h : FrameCall.isCall t = false) : Silent [.line t] := by
  intro u hu
  rw [List.mem_singleton.mp hu]
  exact h

end Print

theorem readFrames_silent {ps : List Print} (h : Print.Silent ps) : readFrames ps = some [] := by
  rw [readFrames, List.filter_eq_nil_iff.mpr fun t ht => by rw [h t ht]; exact Bool.false_ne_true]
  rfl

/-- One call among instructions that write no call. -/
theorem readFrames_around {p : Print} {t : Text} {call : FrameCall} (hp : p.text? = some t)
    (h : FrameCall.ofText? t = some call) {before after : List Print} (hbefore : Print.Silent before)
    (hafter : Print.Silent after) : readFrames (before ++ p :: after) = some [call] := by
  have hcall : readFrames [p] = some [call] := by
    rw [readFrames, List.filterMap_cons_some hp, List.filterMap_nil, List.filter_cons,
      if_pos (FrameCall.isCall_of_ofText? h), List.filter_nil, List.mapM_cons, h]
    rfl
  have := readFrames_append hcall (readFrames_silent hafter)
  exact readFrames_append (readFrames_silent hbefore) this

/-! ## Emissions -/

namespace Emission

/-- What is printed of the value of an attribute is no call. -/
theorem silent_printValue (value : AttributeCode) {ps : List Print} (h : Print.Silent ps) :
    Print.Silent (printValue value :: ps) := by
  intro t ht
  cases value with
  | isSet =>
      rcases List.mem_cons.mp ht with rfl | ht
      · decide
      · exact h t ht
  | literal u =>
      rcases List.mem_cons.mp ht with rfl | ht
      · rfl
      · exact h t ht
  | code u span => exact h t ht

/-- The frames that are open behind an emission of a component, unless it closes another frame than the
    innermost one. -/
def framesBehind? (kinds : List FrameKind) (e : Emission) : Option (List FrameKind) :=
  if e.standsAlone true then some kinds
  else
    match e with
    | elementStart _ => some (.element :: kinds)
    | componentStart _ => some (.component :: kinds)
    | fragmentStart _ => some (.fragment :: kinds)
    | elementEnd => if kinds.head? = some .element then some kinds.tail else none
    | componentEnd => if kinds.head? = some .component then some kinds.tail else none
    | fragmentEnd => if kinds.head? = some .fragment then some kinds.tail else none
    | _ => none

/-- Nested emissions of a component leave the frames open that were. -/
theorem Nested.framesBehind {P : Text → Span → Prop} {es : List Emission} (h : Nested true P es) :
    ∀ kinds, es.foldlM framesBehind? kinds = some kinds := by
  induction h with
  | nil => exact fun _ => rfl
  | append _ _ ih ih' =>
      intro kinds
      rw [List.foldlM_append, ih kinds]
      exact ih' kinds
  | single hstands _ =>
      intro kinds
      have hflat : framesBehind? kinds _ = some kinds := if_pos hstands
      rw [List.foldlM_cons, hflat]
      rfl
  | enclosed hencloses _ ih =>
      intro kinds
      cases hencloses with
      | ofElement name =>
          show (_ ++ [elementEnd]).foldlM framesBehind? (.element :: kinds) = _
          rw [List.foldlM_append, ih]
          rfl
      | ofComponent type =>
          show (_ ++ [componentEnd]).foldlM framesBehind? (.component :: kinds) = _
          rw [List.foldlM_append, ih]
          rfl
      | ofFragment name =>
          show (_ ++ [fragmentEnd]).foldlM framesBehind? (.fragment :: kinds) = _
          rw [List.foldlM_append, ih]
          rfl

/-- The open frames of some kinds: each has the builder of as many fragments as are open with it. -/
def openFrames : List FrameKind → List OpenFrame
  | [] => []
  | kind :: kinds =>
    ⟨kind, BodyState.builderAt ((kind :: kinds).count .fragment)⟩ :: openFrames kinds

theorem builderIn_openFrames (kinds : List FrameKind) :
    FrameCall.builderIn (openFrames kinds) = BodyState.builderAt (kinds.count .fragment) := by
  cases kinds with
  | nil => rfl
  | cons kind kinds => rfl

/-- Some instructions are read as calls that lead from some open frames to others and number what they add
    from one state to another. -/
structure Tracks (kinds kinds' : List FrameKind) (s s' : BodyState) (ps : List Print)
    (calls : List FrameCall) : Prop where
  read : readFrames ps = some calls
  nested : calls.foldlM FrameCall.step? (openFrames kinds) = some (openFrames kinds')
  numbered : ∃ n, s'.sequence = s.sequence + n ∧
    calls.filterMap FrameCall.sequence? = List.range' s.sequence n
  depth : s'.fragments = kinds'.count .fragment

variable {kinds kinds' kinds'' : List FrameKind} {s s' s'' : BodyState} {ps qs : List Print}
  {calls later : List FrameCall}

theorem Tracks.append (h : Tracks kinds kinds' s s' ps calls)
    (h' : Tracks kinds' kinds'' s' s'' qs later) :
    Tracks kinds kinds'' s s'' (ps ++ qs) (calls ++ later) where
  read := readFrames_append h.read h'.read
  nested := by
    rw [List.foldlM_append, h.nested]
    exact h'.nested
  numbered := by
    obtain ⟨m, hm, hcalls⟩ := h.numbered
    obtain ⟨n, hn, hlater⟩ := h'.numbered
    refine ⟨m + n, by omega, ?_⟩
    rw [List.filterMap_append, hcalls, hlater, hm, List.range'_append_1]
  depth := h'.depth

/-- Instructions that write no call. -/
theorem tracks_silent (hdepth : s.fragments = kinds.count .fragment) (h : Print.Silent ps) :
    Tracks kinds kinds s s ps [] :=
  ⟨readFrames_silent h, rfl, ⟨0, rfl, rfl⟩, hdepth⟩

/-- Instructions with one call, which adds or opens a frame. -/
theorem tracks_numbered {call : FrameCall} (hread : readFrames ps = some [call])
    (hsequence : call.sequence? = some s.sequence)
    (hstep : FrameCall.step? (openFrames kinds) call = some (openFrames kinds'))
    (hs : s'.sequence = s.sequence + 1) (hdepth : s'.fragments = kinds'.count .fragment) :
    Tracks kinds kinds' s s' ps [call] where
  read := hread
  nested := by
    rw [List.foldlM_cons, hstep]
    rfl
  numbered := ⟨1, hs, by rw [List.filterMap_cons_some hsequence]; rfl⟩
  depth := hdepth

/-- Instructions with one call, which adds no frame. -/
theorem tracks_unnumbered {call : FrameCall} (hread : readFrames ps = some [call])
    (hsequence : call.sequence? = none)
    (hstep : FrameCall.step? (openFrames kinds) call = some (openFrames kinds'))
    (hs : s'.sequence = s.sequence) (hdepth : s'.fragments = kinds'.count .fragment) :
    Tracks kinds kinds' s s' ps [call] where
  read := hread
  nested := by
    rw [List.foldlM_cons, hstep]
    rfl
  numbered := ⟨0, hs, by rw [List.filterMap_cons_none hsequence]; rfl⟩
  depth := hdepth

/-- The builder that a state adds frames to is that of the innermost frame, if as many fragments are open. -/
theorem builder_eq_builderIn (hdepth : s.fragments = kinds.count .fragment) :
    s.builder = FrameCall.builderIn (openFrames kinds) := by
  rw [builderIn_openFrames, ← hdepth]
  rfl

theorem tracks_adds (hdepth : s.fragments = kinds.count .fragment)
    (hread : readFrames ps = some [.adds s.builder s.sequence]) :
    ∃ calls, Tracks kinds kinds s s.numbered ps calls :=
  ⟨_, tracks_numbered hread rfl (if_pos (builder_eq_builderIn hdepth)) rfl hdepth⟩

theorem tracks_opens {kind : FrameKind} (hkind : kind ≠ .fragment)
    (hdepth : s.fragments = kinds.count .fragment)
    (hread : readFrames ps = some [.opens kind s.builder s.sequence]) :
    ∃ calls, Tracks kinds (kind :: kinds) s s.numbered ps calls := by
  have hcount : (kind :: kinds).count .fragment = kinds.count .fragment := List.count_cons_of_ne hkind
  have hbuilder := builder_eq_builderIn hdepth
  refine ⟨_, tracks_numbered hread rfl ((if_pos hbuilder).trans ?_) rfl (hdepth.trans hcount.symm)⟩
  rw [openFrames, hcount, ← builderIn_openFrames, hbuilder]

theorem tracks_closes {kind : FrameKind} (hkind : kind ≠ .fragment)
    (hdepth : s.fragments = (kind :: kinds).count .fragment)
    (hread : readFrames ps = some [.closes kind s.builder]) :
    ∃ calls, Tracks (kind :: kinds) kinds s s ps calls := by
  have hcount : (kind :: kinds).count .fragment = kinds.count .fragment := List.count_cons_of_ne hkind
  refine ⟨_, tracks_unnumbered hread rfl (if_pos ?_) rfl (hdepth.trans hcount)⟩
  rw [builder_eq_builderIn hdepth]
  rfl

theorem tracks_fragmentStart (k : BodyKind) (hdepth : s.fragments = kinds.count .fragment)
    (name : Text) : ∃ calls, Tracks kinds (.fragment :: kinds) s (print k s (fragmentStart name)).1
      (print k s (fragmentStart name)).2 calls := by
  have hcount : s.fragments + 1 = (.fragment :: kinds).count .fragment := by
    rw [List.count_cons_self, hdepth]
  have hread := FrameCall.ofText?_opensFragment s name (BodyState.builderAt (s.fragments + 1))
  refine ⟨_, tracks_numbered (readFrames_around rfl hread (Print.silent_single rfl) (Print.silent_single rfl)) rfl
    ((if_pos (builder_eq_builderIn hdepth)).trans ?_) rfl hcount⟩
  rw [openFrames, hcount]

theorem tracks_fragmentEnd (k : BodyKind) (hdepth : s.fragments = (.fragment :: kinds).count .fragment) :
    ∃ calls, Tracks (.fragment :: kinds) kinds s (print k s fragmentEnd).1
      (print k s fragmentEnd).2 calls := by
  rw [List.count_cons_self] at hdepth
  have hread : FrameCall.ofText? ['\x7d'] = some .closesFragment := rfl
  refine ⟨_, tracks_unnumbered (readFrames_around rfl hread (Print.silent_single rfl) (Print.silent_line rfl)) rfl rfl
    rfl ?_⟩
  rw [print, hdepth]
  rfl

theorem tracks_markup {k : BodyKind} (hk : k.component = true) (hdepth : s.fragments = kinds.count .fragment)
    (t : Text) : ∃ calls, Tracks kinds kinds s (printMarkup k s t).1 (printMarkup k s t).2 calls := by
  rw [printMarkup, hk]
  split
  · exact ⟨[], tracks_silent hdepth Print.silent_nil⟩
  · exact tracks_adds hdepth (readFrames_around rfl
      (FrameCall.ofText?_adds_stringLiteral s (by decide) t rfl) (Print.silent_single rfl) Print.silent_nil)

theorem tracks_expression {k : BodyKind} (hk : k.component = true) (hdepth : s.fragments = kinds.count .fragment)
    (t : Text) (span : Span) :
    ∃ calls, Tracks kinds kinds s (printExpression k s t span).1 (printExpression k s t span).2 calls := by
  rw [printExpression, hk]
  split
  · exact ⟨[], tracks_silent hdepth Print.silent_nil⟩
  · split
    · refine ⟨[], tracks_silent hdepth fun t ht => ?_⟩
      rcases List.mem_cons.mp ht with rfl | ht
      · rfl
      · exact Print.silent_line (t := ";") rfl t ht
    · exact tracks_adds hdepth (readFrames_around rfl
        (FrameCall.ofText?_adds s (by decide) rfl) (Print.silent_single rfl) (Print.silent_line rfl))

/-- An emission that closes a frame closes the innermost one. -/
theorem kinds_eq_of_closes {kind : FrameKind}
    (h : (if kinds.head? = some kind then some kinds.tail else none) = some kinds') : kinds = kind :: kinds' := by
  obtain ⟨hhead, htail⟩ := Option.ite_none_right_eq_some.mp h
  obtain ⟨rest, rfl⟩ := List.head?_eq_some_iff.mp hhead
  rw [← Option.some.inj htail]
  rfl

/-- What is printed for an emission of a component is read as calls that do to the open frames what the
    emission does. -/
theorem tracks_print {k : BodyKind} (hk : k.component = true)
    (hdepth : s.fragments = kinds.count .fragment) {e : Emission}
    (h : framesBehind? kinds e = some kinds') :
    ∃ calls, Tracks kinds kinds' s (print k s e).1 (print k s e).2 calls := by
  have hfresh : Print.Silent [.freshLine] := Print.silent_single rfl
  have hnone := Print.silent_nil
  -- one case for each emission: what it prints holds at most one call, and this does what the emission does
  cases e with
  | markup t =>
      obtain rfl := Option.some.inj h
      exact tracks_markup hk hdepth t
  | expression t span =>
      obtain rfl := Option.some.inj h
      exact tracks_expression hk hdepth t span
  | statement t span =>
      obtain rfl := Option.some.inj h
      refine ⟨[], tracks_silent hdepth ?_⟩
      show Print.Silent (printCode t span)
      unfold printCode
      split
      · exact hnone
      · exact hnone
  | elementStart name =>
      obtain rfl := Option.some.inj h
      have hread := FrameCall.ofText?_openElement s (' ' :: (stringLiteral name ++ ");"))
      refine tracks_opens (by decide) hdepth (readFrames_around rfl ?_ hfresh hnone)
      rw [List.append_assoc, List.append_assoc]
      exact hread
  | elementEnd =>
      obtain rfl := kinds_eq_of_closes h
      exact tracks_closes (by decide) hdepth
        (readFrames_around rfl (FrameCall.ofText?_closeElement s) hfresh hnone)
  | componentStart type =>
      obtain rfl := Option.some.inj h
      exact tracks_opens (by decide) hdepth
        (readFrames_around rfl (FrameCall.ofText?_openComponent s type) hfresh hnone)
  | componentEnd =>
      obtain rfl := kinds_eq_of_closes h
      exact tracks_closes (by decide) hdepth
        (readFrames_around rfl (FrameCall.ofText?_closeComponent s) hfresh hnone)
  | setAttribute name value =>
      obtain rfl := Option.some.inj h
      exact tracks_adds hdepth (readFrames_around rfl
        (FrameCall.ofText?_adds_stringLiteral s (by decide) name rfl) hnone
        (silent_printValue value (Print.silent_line rfl)))
  | key value =>
      obtain rfl := Option.some.inj h
      exact ⟨_, tracks_unnumbered (readFrames_around rfl (FrameCall.ofText?_setKey s) hnone
        (silent_printValue value (Print.silent_line rfl))) rfl (if_pos (builder_eq_builderIn hdepth)) rfl
        hdepth⟩
  | reference component value =>
      obtain rfl := Option.some.inj h
      cases component with
      | none =>
          exact tracks_adds hdepth (readFrames_around rfl
            (FrameCall.ofText?_adds s (by decide) rfl) hnone (silent_printValue value (Print.silent_line rfl)))
      | some type =>
          exact tracks_adds hdepth (readFrames_around rfl
            (FrameCall.ofText?_adds s (by decide) rfl) hnone (silent_printValue value (Print.silent_line rfl)))
  | callback name value =>
      obtain rfl := Option.some.inj h
      refine tracks_adds hdepth
        (readFrames_around rfl ?_ hnone (silent_printValue value (Print.silent_line rfl)))
      rw [List.append_assoc _ componentsSpace, List.append_assoc _ (", " : Text)]
      exact FrameCall.ofText?_adds_stringLiteral s (by decide) name rfl
  | fragmentStart name =>
      obtain rfl := Option.some.inj h
      exact tracks_fragmentStart k hdepth name
  | fragmentEnd =>
      obtain rfl := kinds_eq_of_closes h
      exact tracks_fragmentEnd k hdepth
  | _ => exact absurd h (Option.some_ne_none kinds').symm

/-- The calls of emissions in order. -/
theorem tracks_printAll {k : BodyKind} (hk : k.component = true) {es : List Emission}
    (hdepth : s.fragments = kinds.count .fragment) (h : es.foldlM framesBehind? kinds = some kinds') :
    ∃ s' calls, Tracks kinds kinds' s s' (printAll k s es) calls := by
  induction es generalizing s kinds with
  | nil =>
      obtain rfl := Option.some.inj h
      exact ⟨s, [], tracks_silent hdepth fun t ht => absurd ht List.not_mem_nil⟩
  | cons e es ih =>
      rw [List.foldlM_cons] at h
      cases hframes : framesBehind? kinds e with
      | none =>
          rw [hframes] at h
          exact nomatch h
      | some behind =>
          rw [hframes] at h
          obtain ⟨calls, hcalls⟩ := tracks_print hk hdepth hframes
          obtain ⟨s', later, hlater⟩ := ih hcalls.depth h
          exact ⟨s', calls ++ later, hcalls.append hlater⟩

end Emission

/-- Calls that close what they open and nothing else, each on the builder of the frame that it stands in, and
    that number what they add from zero on. -/
structure FrameCall.WellFormed (calls : List FrameCall) : Prop where
  nested : calls.foldlM step? [] = some []
  numbered : ∃ n, calls.filterMap sequence? = List.range n

/-- The body of a component whose emissions are nested is a sequence of well-formed calls. -/
theorem Emission.wellFormed_printAll {k : BodyKind} (hk : k.component = true) {es : List Emission}
    (h : es.foldlM framesBehind? [] = some []) :
    ∃ calls, readFrames (printAll k {} es) = some calls ∧ FrameCall.WellFormed calls := by
  obtain ⟨s', calls, hcalls⟩ := tracks_printAll (s := {}) hk rfl h
  obtain ⟨n, -, hnumbers⟩ := hcalls.numbered
  exact ⟨calls, hcalls.read, hcalls.nested, n, hnumbers.trans (List.range_eq_range' ..).symm⟩

/-- What a component emits leaves no frame open and closes none twice. -/
theorem Tree.framesBehind_emissions (root : Tree) :
    (root.emissions true).foldlM Emission.framesBehind? [] = some [] := by
  have hnested : Emission.Nested true (fun _ _ => True) (Emitted.ofTree true false root).whole :=
    (Emitted.nested_ofTree true false fun n _ => ⟨fun _ => trivial, fun _ _ _ _ => trivial⟩).1
  rw [Tree.emissions, Emission.foldlM_joinMarkup fun _ _ => rfl]
  exact hnested.framesBehind []

end RazorLang
