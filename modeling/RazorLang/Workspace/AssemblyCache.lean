import RazorLang.TagHelper.Basic
import RazorLang.Workspace.Fault

/-!
# Tag helpers of assemblies

Finding the tag helpers of an assembly is costly, and they follow from its content alone, so compilations
share them. An entry of an `AssemblyCache` is owned by the contexts that asked for it and lives as long as
one of them does.
-/

namespace RazorLang

/-- An assembly with a certain content. -/
structure AssemblyIdentity where
  name : Text
  contentHash : Text
  deriving DecidableEq, Repr

/-- A compilation that asks a cache for tag helpers. -/
structure CompilationContext where
  /-- The number of the cache that the context belongs to. -/
  cache : Nat
  /-- The number of the context within its cache. -/
  id : Nat
  deriving DecidableEq, Repr

/-- What a search for tag helpers found. Searches are numbered, so that two of them are told apart even if
    they find the same. -/
structure Finding where
  number : Nat
  tagHelpers : List TagHelper
  deriving DecidableEq, Repr

/-- The tag helpers of an assembly and the contexts that asked for them. -/
structure CachedAssembly where
  assembly : AssemblyIdentity
  finding : Finding
  owners : List Nat
  deriving DecidableEq, Repr

/-- The tag helpers of assemblies that live contexts refer to. -/
structure AssemblyCache where
  /-- The number of the cache. -/
  id : Nat
  entries : List CachedAssembly := []
  /-- Contexts registered so far. -/
  contexts : Nat := 0
  /-- Searches made so far. -/
  searches : Nat := 0
  deriving DecidableEq, Repr

namespace AssemblyCache

/-- A new context of the cache. -/
def register (c : AssemblyCache) : CompilationContext × AssemblyCache :=
  (⟨c.id, c.contexts⟩, { c with contexts := c.contexts + 1 })

/-- The entry of an assembly. -/
def find? (c : AssemblyCache) (a : AssemblyIdentity) : Option CachedAssembly :=
  c.entries.find? (·.assembly == a)

/-- The cache has the tag helpers of an assembly. -/
def contains (c : AssemblyCache) (a : AssemblyIdentity) : Bool := (c.find? a).isSome

/-- Makes a context one of the owners of an assembly. -/
def own (c : AssemblyCache) (a : AssemblyIdentity) (context : Nat) : AssemblyCache :=
  { c with entries := c.entries.map fun e =>
      if e.assembly = a then { e with owners := context :: e.owners.erase context } else e }

/-- Keeps what a search found, unless there is an entry by now, and answers the finding that is kept. -/
def keep (c : AssemblyCache) (a : AssemblyIdentity) (tagHelpers : List TagHelper) (context : Nat) :
    Finding × AssemblyCache :=
  let found : Finding := ⟨c.searches, tagHelpers⟩
  let c := { c with searches := c.searches + 1 }
  match c.find? a with
  | some e => (e.finding, c.own a context)
  | none => (found, { c with entries := c.entries ++ [⟨a, found, [context]⟩] })

/-- The tag helpers of an assembly for a context, which are searched for if the cache does not have them.
    The search may itself use the cache. -/
def get (c : AssemblyCache) (context : CompilationContext) (a : AssemblyIdentity)
    (search : AssemblyCache → List TagHelper × AssemblyCache) :
    Except WorkspaceFault (Finding × AssemblyCache) :=
  if context.cache ≠ c.id then .error .foreignContext
  else
    match c.find? a with
    | some e => .ok (e.finding, c.own a context.id)
    | none =>
      let (tagHelpers, c) := search c
      .ok (c.keep a tagHelpers context.id)

/-- Gives up a context; assemblies that no other context owns leave the cache. -/
def drop (c : AssemblyCache) (context : CompilationContext) : AssemblyCache :=
  if context.cache ≠ c.id then c
  else
    let released := c.entries.map fun e => { e with owners := e.owners.erase context.id }
    { c with entries := released.filter fun e => !e.owners.isEmpty }

end AssemblyCache

end RazorLang
