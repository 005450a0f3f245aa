import Mathlib.Data.List.Nodup
import RazorLang.Workspace.AssemblyCache

/-!
# Sharing the tag helpers of assemblies

A `CacheSession` is a cache with everything that happens around it: contexts are registered and dropped, they
ask for tag helpers, and while the search for one assembly is under way others may be asked for, by the search
itself or by anyone else. Main statement: `CacheSession.sharing_run` — at every time the cache has an assembly
if and only if a context that is live has been given it, and as long as it has it everyone is given what was
found first, without a further search. The route: what the three changes of a cache make of its entries, one
invariant (`CacheSession.Owned`) that each of them keeps, and what one act does to an entry that survives it.
-/

namespace RazorLang

/-! ## Entries -/

namespace AssemblyCache

variable {c : AssemblyCache} {a : AssemblyIdentity} {e : CachedAssembly} {i : Nat}
  {x : CompilationContext}

/-- No two entries are of one assembly. -/
def Distinct (c : AssemblyCache) : Prop := (c.entries.map (·.assembly)).Nodup

theorem contains_iff : c.contains a = true ↔ ∃ e ∈ c.entries, e.assembly = a := by
  rw [contains, find?, List.find?_isSome]
  simp only [beq_iff_eq]

theorem contains_eq_false : c.contains a = false ↔ c.find? a = none := by
  rw [contains, Option.isSome_eq_false_iff, Option.isNone_iff_eq_none]

theorem mem_of_find? (h : c.find? a = some e) : e ∈ c.entries ∧ e.assembly = a := by
  have ha := List.find?_some h
  exact ⟨List.mem_of_find?_eq_some h, eq_of_beq ha⟩

theorem find?_eq_some (h : c.Distinct) (he : e ∈ c.entries) : c.find? e.assembly = some e := by
  obtain ⟨e', he'⟩ := Option.isSome_iff_exists.mp (contains_iff.mpr ⟨e, he, rfl⟩)
  obtain ⟨hin, ha⟩ := mem_of_find? he'
  rw [he', List.inj_on_of_nodup_map h hin he ha]

/-- What a search has found is given up where the cache has the assembly by then. -/
theorem keep_of_find? (h : c.find? a = some e) (tagHelpers : List TagHelper) :
    c.keep a tagHelpers i = (e.finding, { c with searches := c.searches + 1 }.own a i) := by
  simp only [keep, find?]
  rw [show c.entries.find? _ = some e from h]

theorem keep_of_contains (h : c.contains a = false) (tagHelpers : List TagHelper) :
    c.keep a tagHelpers i = (⟨c.searches, tagHelpers⟩,
      { c with
        searches := c.searches + 1
        entries := c.entries ++ [⟨a, ⟨c.searches, tagHelpers⟩, [i]⟩] }) := by
  simp only [keep, find?]
  rw [show c.entries.find? _ = none from contains_eq_false.mp h]

theorem mem_own {e' : CachedAssembly} : e' ∈ (c.own a i).entries ↔ ∃ e ∈ c.entries,
    (if e.assembly = a then { e with owners := i :: e.owners.erase i } else e) = e' :=
  List.mem_map

/-- A further owner changes nothing about which assemblies the cache has. -/
theorem assemblies_own : (c.own a i).entries.map (·.assembly) = c.entries.map (·.assembly) := by
  rw [own, List.map_map]
  refine List.map_congr_left fun e _ => ?_
  rw [Function.comp_apply]
  split
  · rfl
  · rfl

theorem contains_own (b : AssemblyIdentity) : (c.own a i).contains b = c.contains b := by
  rw [Bool.eq_iff_iff, contains_iff, contains_iff, ← List.mem_map, ← List.mem_map, assemblies_own]

theorem distinct_own (h : c.Distinct) : (c.own a i).Distinct := by
  rw [Distinct, assemblies_own]
  exact h

/-- Dropping a context of the cache takes it from the owners of every entry and keeps the entries that are
    owned then. -/
theorem mem_drop (hx : x.cache = c.id) {e' : CachedAssembly} : e' ∈ (c.drop x).entries ↔
    (∃ e ∈ c.entries, { e with owners := e.owners.erase x.id } = e') ∧ e'.owners ≠ [] := by
  rw [drop, if_neg (not_not.mpr hx)]
  show e' ∈ List.filter _ _ ↔ _
  rw [List.mem_filter, List.mem_map]
  simp

theorem distinct_drop (hx : x.cache = c.id) (h : c.Distinct) : (c.drop x).Distinct := by
  rw [drop, if_neg (not_not.mpr hx), Distinct]
  refine List.Nodup.sublist (List.filter_sublist.map _) ?_
  rw [List.map_map]
  exact h

end AssemblyCache

/-! ## Sessions -/

/-- What a context was told about an assembly. -/
structure CacheAnswer where
  context : CompilationContext
  assembly : AssemblyIdentity
  result : Except WorkspaceFault Finding

/-- A search that is under way: who asked for what, and the cache that did not have it then. -/
structure PendingSearch where
  context : CompilationContext
  assembly : AssemblyIdentity
  before : AssemblyCache

/-- A cache with the contexts that are live, the searches that are under way, innermost first, the assemblies
    that have been searched, and the answers that have been given, the last one last. -/
structure CacheSession where
  cache : AssemblyCache
  live : List CompilationContext := []
  pending : List PendingSearch := []
  searched : List AssemblyIdentity := []
  answers : List CacheAnswer := []

/-- What happens around a cache. -/
inductive CacheAct where
  | register
  | ask (x : CompilationContext) (a : AssemblyIdentity)
  /-- A search comes back with what it has found. -/
  | back (i : Nat) (tagHelpers : List TagHelper)
  | drop (x : CompilationContext)

namespace CacheSession

/-- Notes the answer to a context. -/
def settle (s : CacheSession) (x : CompilationContext) (a : AssemblyIdentity) :
    Except WorkspaceFault (Finding × AssemblyCache) → CacheSession
  | .error fault => { s with answers := s.answers ++ [⟨x, a, .error fault⟩] }
  | .ok (finding, cache) => { s with cache, answers := s.answers ++ [⟨x, a, .ok finding⟩] }

/-- What one act leads to. Of this cache only live contexts can ask, and a context is not dropped while its
    own search is under way. -/
def step (s : CacheSession) : CacheAct → CacheSession
  | .register =>
    let (x, cache) := s.cache.register
    { s with cache, live := x :: s.live }
  | .ask x a =>
    if x.cache = s.cache.id ∧ x ∉ s.live then s
    else if x.cache = s.cache.id ∧ s.cache.contains a = false then
      { s with pending := ⟨x, a, s.cache⟩ :: s.pending, searched := s.searched ++ [a] }
    else s.settle x a (s.cache.get x a fun c => ([], c))
  | .back i tagHelpers =>
    match s.pending[i]? with
    | none => s
    | some p =>
      { s with pending := s.pending.eraseIdx i }.settle p.context p.assembly
        (p.before.get p.context p.assembly fun _ => (tagHelpers, s.cache))
  | .drop x =>
    if x ∈ s.live ∧ x ∉ s.pending.map (·.context) then
      { s with cache := s.cache.drop x, live := s.live.filter (· ≠ x) }
    else s

/-- A context of another cache is turned away. -/
def refused (s : CacheSession) (x : CompilationContext) (a : AssemblyIdentity) : CacheSession :=
  s.settle x a (.error .foreignContext)

/-- What some acts lead to, one after the other. -/
def run (s : CacheSession) (acts : List CacheAct) : CacheSession := acts.foldl step s

/-- The context has been given the assembly. -/
def Given (s : CacheSession) (x : CompilationContext) (a : AssemblyIdentity) : Prop :=
  ∃ finding, ⟨x, a, .ok finding⟩ ∈ s.answers

variable {s s' : CacheSession} {x y : CompilationContext} {a b : AssemblyIdentity} {f : Finding}

theorem given_ok (h : s'.answers = s.answers ++ [⟨x, a, .ok f⟩]) :
    s'.Given y b ↔ s.Given y b ∨ y = x ∧ b = a := by
  unfold Given
  rw [h]
  constructor
  · rintro ⟨g, hg⟩
    rcases List.mem_append.mp hg with hg | hg
    · exact Or.inl ⟨g, hg⟩
    · obtain ⟨rfl, rfl, -⟩ := CacheAnswer.mk.inj (List.mem_singleton.mp hg)
      exact Or.inr ⟨rfl, rfl⟩
  · rintro (⟨g, hg⟩ | ⟨rfl, rfl⟩)
    · exact ⟨g, List.mem_append_left _ hg⟩
    · exact ⟨f, List.mem_append_right _ (List.mem_singleton_self _)⟩

theorem given_error {fault : WorkspaceFault} (h : s'.answers = s.answers ++ [⟨x, a, .error fault⟩]) :
    s'.Given y b ↔ s.Given y b := by
  unfold Given
  rw [h]
  refine exists_congr fun g => ⟨fun hg => ?_, List.mem_append_left _⟩
  rcases List.mem_append.mp hg with hg | hg
  · exact hg
  · exact nomatch (CacheAnswer.mk.inj (List.mem_singleton.mp hg)).2.2

/-! ## Owners -/

/-- The owners of an entry are the live contexts that have been given its assembly, and there are some. -/
structure OwnsEntry (s : CacheSession) (e : CachedAssembly) : Prop where
  nodup : e.owners.Nodup
  owned : e.owners ≠ []
  mem_iff : ∀ i, i ∈ e.owners ↔ ⟨s.cache.id, i⟩ ∈ s.live ∧ s.Given ⟨s.cache.id, i⟩ e.assembly

/-- Every entry is owned by the live contexts that have been given its assembly, and they all find it. -/
structure Owned (s : CacheSession) : Prop where
  distinct : s.cache.Distinct
  owners : ∀ e ∈ s.cache.entries, s.OwnsEntry e
  kept : ∀ x ∈ s.live, ∀ a, s.Given x a → s.cache.contains a = true
  ours : ∀ x ∈ s.live, x.cache = s.cache.id
  registered : ∀ x, x ∈ s.live ∨ (∃ a, s.Given x a) → x.id < s.cache.contexts
  searching : ∀ p ∈ s.pending,
    p.context ∈ s.live ∧ p.before.id = s.cache.id ∧ p.before.contains p.assembly = false

theorem Owned.eq_of_mem (h : s.Owned) (hx : x ∈ s.live) : (⟨s.cache.id, x.id⟩ : CompilationContext) = x := by
  rw [← h.ours x hx]

/-- An entry for an assembly is owned by those that own it and by the context that is given it now. -/
theorem OwnsEntry.own {e : CachedAssembly} (he : s.OwnsEntry e) (hx : x ∈ s.live)
    (hcache : x.cache = s.cache.id) (hid : s'.cache.id = s.cache.id) (hlive : s'.live = s.live)
    (hgiven : ∀ y b, s'.Given y b ↔ s.Given y b ∨ y = x ∧ b = e.assembly) :
    s'.OwnsEntry { e with owners := x.id :: e.owners.erase x.id } where
  nodup := List.nodup_cons.mpr ⟨he.nodup.not_mem_erase, he.nodup.erase _⟩
  owned := List.cons_ne_nil _ _
  mem_iff i := by
    rw [hid, hlive, hgiven, List.mem_cons]
    by_cases hi : i = x.id
    · have heq : (⟨s.cache.id, i⟩ : CompilationContext) = x := by rw [hi, ← hcache]
      exact ⟨fun _ => ⟨heq ▸ hx, Or.inr ⟨heq, rfl⟩⟩, fun _ => Or.inl hi⟩
    · rw [List.mem_erase_of_ne hi, he.mem_iff]
      have hne : (⟨s.cache.id, i⟩ : CompilationContext) ≠ x := fun heq => hi (congrArg (·.id) heq)
      constructor
      · rintro (hi' | ⟨hlive, hgiven⟩)
        · exact absurd hi' hi
        · exact ⟨hlive, Or.inl hgiven⟩
      · rintro ⟨hlive, hgiven | ⟨heq, -⟩⟩
        · exact Or.inr ⟨hlive, hgiven⟩
        · exact absurd heq hne

/-- An entry is owned as before where the same live contexts have been given its assembly. -/
theorem OwnsEntry.congr {e : CachedAssembly} (he : s.OwnsEntry e)
    (h : ∀ i, (⟨s'.cache.id, i⟩ ∈ s'.live ∧ s'.Given ⟨s'.cache.id, i⟩ e.assembly) ↔
      ⟨s.cache.id, i⟩ ∈ s.live ∧ s.Given ⟨s.cache.id, i⟩ e.assembly) : s'.OwnsEntry e :=
  ⟨he.nodup, he.owned, fun i => (he.mem_iff i).trans (h i).symm⟩

/-- A context is given what was found in an assembly; nobody comes or goes. -/
structure Gives (s s' : CacheSession) (x : CompilationContext) (a : AssemblyIdentity) (f : Finding) :
    Prop where
  live : s'.live = s.live
  id : s'.cache.id = s.cache.id
  contexts : s'.cache.contexts = s.cache.contexts
  pending : s'.pending ⊆ s.pending
  answers : s'.answers = s.answers ++ [⟨x, a, .ok f⟩]

/-- Who a session is made of stays as it should when a live context is given an assembly, so that only the
    entries have to be looked at. -/
theorem Owned.of_gives (h : s.Owned) (hx : x ∈ s.live) (hs : s.Gives s' x a f)
    (hdistinct : s'.cache.Distinct) (howners : ∀ e ∈ s'.cache.entries, s'.OwnsEntry e)
    (hkept : ∀ b, s.cache.contains b = true ∨ b = a → s'.cache.contains b = true) : s'.Owned where
  distinct := hdistinct
  owners := howners
  kept y hy b hb := by
    rw [hs.live] at hy
    rcases (given_ok hs.answers).mp hb with hb | ⟨-, rfl⟩
    · exact hkept b (Or.inl (h.kept y hy b hb))
    · exact hkept b (Or.inr rfl)
  ours := by
    rw [hs.live, hs.id]
    exact h.ours
  registered y hy := by
    rw [hs.contexts]
    rw [hs.live] at hy
    rcases hy with hy | ⟨b, hb⟩
    · exact h.registered y (Or.inl hy)
    · rcases (given_ok hs.answers).mp hb with hb | ⟨rfl, -⟩
      · exact h.registered y (Or.inr ⟨b, hb⟩)
      · exact h.registered y (Or.inl hx)
  searching p hp := by
    rw [hs.live, hs.id]
    exact h.searching p (hs.pending hp)

/-- A live context is given an assembly that the cache has. -/
theorem Owned.own (h : s.Owned) (hx : x ∈ s.live) (ha : s.cache.contains a = true)
    (hs : s.Gives s' x a f) (hentries : s'.cache.entries = (s.cache.own a x.id).entries) : s'.Owned := by
  refine h.of_gives hx hs ?_ (fun e' he' => ?_) fun b hb => ?_
  · rw [AssemblyCache.Distinct, hentries]
    exact AssemblyCache.distinct_own h.distinct
  · rw [hentries] at he'
    obtain ⟨e, he, rfl⟩ := AssemblyCache.mem_own.mp he'
    have howns := h.owners e he
    split
    · next hassembly =>
        subst hassembly
        exact howns.own hx (h.ours x hx) hs.id hs.live fun y b => given_ok hs.answers
    · next hassembly =>
        refine howns.congr fun i => ?_
        rw [hs.id, hs.live, given_ok hs.answers]
        exact and_congr_right fun _ => or_iff_left fun hne => hassembly hne.2
  · have hsame : s'.cache.contains b = s.cache.contains b := by
      rw [← AssemblyCache.contains_own (c := s.cache) (a := a) (i := x.id) b]
      unfold AssemblyCache.contains AssemblyCache.find?
      rw [hentries]
    rw [hsame]
    rcases hb with hb | rfl
    · exact hb
    · exact ha

/-- A live context is given an assembly that the cache did not have. -/
theorem Owned.insert (h : s.Owned) (hx : x ∈ s.live) (ha : s.cache.contains a = false)
    (hs : s.Gives s' x a f) (hentries : s'.cache.entries = s.cache.entries ++ [⟨a, f, [x.id]⟩]) :
    s'.Owned := by
  have hnew : ∀ e ∈ s.cache.entries, e.assembly ≠ a := by
    intro e he hassembly
    exact Bool.eq_false_iff.mp ha (AssemblyCache.contains_iff.mpr ⟨e, he, hassembly⟩)
  refine h.of_gives hx hs ?_ (fun e he => ?_) fun b hb => ?_
  · rw [AssemblyCache.Distinct, hentries, List.map_append]
    refine List.Nodup.append h.distinct (List.nodup_singleton _) fun b hb hb' => ?_
    obtain ⟨e, he, rfl⟩ := List.mem_map.mp hb
    exact hnew e he (List.mem_singleton.mp hb')
  · rw [hentries] at he
    rcases List.mem_append.mp he with he | he
    · refine (h.owners e he).congr fun i => ?_
      rw [hs.id, hs.live, given_ok hs.answers]
      exact and_congr_right fun _ => or_iff_left fun hne => hnew e he hne.2
    · rw [List.mem_singleton.mp he]
      refine ⟨List.nodup_singleton _, List.cons_ne_nil _ _, fun i => ?_⟩
      rw [hs.id, hs.live, given_ok hs.answers, List.mem_singleton]
      constructor
      · rintro rfl
        rw [h.eq_of_mem hx]
        exact ⟨hx, Or.inr ⟨rfl, rfl⟩⟩
      · rintro ⟨hy, hgiven | ⟨heq, -⟩⟩
        · exact absurd (h.kept _ hy a hgiven) (Bool.eq_false_iff.mp ha)
        · exact congrArg (·.id) heq
  · rw [AssemblyCache.contains_iff, hentries]
    rcases hb with hb | rfl
    · obtain ⟨e, he, hassembly⟩ := AssemblyCache.contains_iff.mp hb
      exact ⟨e, List.mem_append_left _ he, hassembly⟩
    · exact ⟨_, List.mem_append_right _ (List.mem_singleton_self _), rfl⟩

/-- A context is registered. -/
theorem Owned.register (h : s.Owned) : (s.step .register).Owned := by
  have hfresh (b : AssemblyIdentity) : ¬ s.Given ⟨s.cache.id, s.cache.contexts⟩ b :=
    fun hb => Nat.lt_irrefl _ (h.registered _ (Or.inr ⟨b, hb⟩))
  refine ⟨h.distinct, fun e he => (h.owners e he).congr fun i => ?_, ?_, ?_, ?_, ?_⟩
  · show ⟨s.cache.id, i⟩ ∈ ⟨s.cache.id, s.cache.contexts⟩ :: s.live ∧ s.Given _ _ ↔ _
    rw [List.mem_cons]
    constructor
    · rintro ⟨heq | hlive, hgiven⟩
      · have hgiven : s.Given ⟨s.cache.id, i⟩ e.assembly := hgiven
        rw [heq] at hgiven
        exact absurd hgiven (hfresh _)
      · exact ⟨hlive, hgiven⟩
    · exact fun hi => ⟨Or.inr hi.1, hi.2⟩
  · intro y hy b hb
    rcases List.mem_cons.mp hy with rfl | hy
    · exact absurd hb (hfresh b)
    · exact h.kept y hy b hb
  · intro y hy
    rcases List.mem_cons.mp hy with rfl | hy
    · rfl
    · exact h.ours y hy
  · intro y hy
    show y.id < s.cache.contexts + 1
    rcases hy with hy | hgiven
    · rcases List.mem_cons.mp hy with rfl | hy
      · exact Nat.lt_succ_self _
      · exact Nat.lt_succ_of_lt (h.registered y (Or.inl hy))
    · exact Nat.lt_succ_of_lt (h.registered y (Or.inr hgiven))
  · intro p hp
    obtain ⟨hlive, hbefore⟩ := h.searching p hp
    exact ⟨List.mem_cons_of_mem _ hlive, hbefore⟩

/-- A live context is dropped, of which no search is under way. -/
theorem Owned.drop (h : s.Owned) (hx : x ∈ s.live) (hidle : x ∉ s.pending.map (·.context)) :
    Owned { s with cache := s.cache.drop x, live := s.live.filter (· ≠ x) } := by
  have hcache := h.ours x hx
  have hid : (s.cache.drop x).id = s.cache.id := by
    rw [AssemblyCache.drop, if_neg (not_not.mpr hcache)]
  have hcontexts : (s.cache.drop x).contexts = s.cache.contexts := by
    rw [AssemblyCache.drop, if_neg (not_not.mpr hcache)]
  have hmem {y : CompilationContext} : y ∈ s.live.filter (· ≠ x) ↔ y ∈ s.live ∧ y ≠ x := by
    rw [List.mem_filter, decide_eq_true_iff]
  -- the owners that are left of an entry are the contexts that are left of those it was given to
  have howners {e : CachedAssembly} (he : e ∈ s.cache.entries) (i : Nat) :
      i ∈ e.owners.erase x.id ↔ (⟨s.cache.id, i⟩ ∈ s.live ∧ (⟨s.cache.id, i⟩ : CompilationContext) ≠ x) ∧
        s.Given ⟨s.cache.id, i⟩ e.assembly := by
    have hne : i ≠ x.id ↔ (⟨s.cache.id, i⟩ : CompilationContext) ≠ x := by
      refine not_congr ⟨fun hi => ?_, fun heq => congrArg (·.id) heq⟩
      rw [hi]
      exact h.eq_of_mem hx
    rw [(h.owners e he).nodup.mem_erase_iff, (h.owners e he).mem_iff, hne]
    tauto
  refine ⟨AssemblyCache.distinct_drop hcache h.distinct, fun e' he' => ?_, ?_, ?_, ?_, ?_⟩
  · obtain ⟨⟨e, he, rfl⟩, howned⟩ := (AssemblyCache.mem_drop hcache).mp he'
    refine ⟨(h.owners e he).nodup.erase _, howned, fun i => ?_⟩
    show i ∈ e.owners.erase x.id ↔ ⟨(s.cache.drop x).id, i⟩ ∈ s.live.filter (· ≠ x) ∧
      s.Given ⟨(s.cache.drop x).id, i⟩ e.assembly
    rw [hid, hmem]
    exact howners he i
  · intro y hy b hb
    obtain ⟨hlive, hne⟩ := hmem.mp hy
    obtain ⟨e, he, rfl⟩ := AssemblyCache.contains_iff.mp (h.kept y hlive b hb)
    have hy' : y.id ∈ e.owners.erase x.id := by
      rw [howners he, h.eq_of_mem hlive]
      exact ⟨⟨hlive, hne⟩, hb⟩
    exact AssemblyCache.contains_iff.mpr ⟨_, (AssemblyCache.mem_drop hcache).mpr
      ⟨⟨e, he, rfl⟩, List.ne_nil_of_mem hy'⟩, rfl⟩
  · intro y hy
    exact (h.ours y (hmem.mp hy).1).trans hid.symm
  · intro y hy
    show y.id < (s.cache.drop x).contexts
    rw [hcontexts]
    exact h.registered y (hy.imp_left fun hy => (hmem.mp hy).1)
  · intro p hp
    obtain ⟨hlive, hbefore⟩ := h.searching p hp
    refine ⟨hmem.mpr ⟨hlive, fun heq => hidle ?_⟩, hbefore.1.trans hid.symm, hbefore.2⟩
    rw [← heq]
    exact List.mem_map.mpr ⟨p, hp, rfl⟩

/-! ## Acts -/

/-- What one act can make of a session. Only a search that comes back makes an entry. -/
inductive Change (s : CacheSession) : CacheAct → CacheSession → Prop where
  | idle (act : CacheAct) : Change s act s
  | register : Change s .register (s.step .register)
  | search (x : CompilationContext) (a : AssemblyIdentity) : x ∈ s.live →
      s.cache.contains a = false → Change s (.ask x a)
        { s with pending := ⟨x, a, s.cache⟩ :: s.pending, searched := s.searched ++ [a] }
  | refuse (x : CompilationContext) (a : AssemblyIdentity) : x.cache ≠ s.cache.id →
      Change s (.ask x a) (s.refused x a)
  | share {act : CacheAct} {s' : CacheSession} (x : CompilationContext) (a : AssemblyIdentity)
      {e : CachedAssembly} : x ∈ s.live → s.cache.find? a = some e → s.Gives s' x a e.finding →
      s'.cache.entries = (s.cache.own a x.id).entries → s'.searched = s.searched → Change s act s'
  | insert {i : Nat} {s' : CacheSession} (x : CompilationContext) (a : AssemblyIdentity)
      (f : Finding) : x ∈ s.live → s.cache.contains a = false → s.Gives s' x a f →
      s'.cache.entries = s.cache.entries ++ [⟨a, f, [x.id]⟩] → s'.searched = s.searched →
      Change s (.back i f.tagHelpers) s'
  | drop (x : CompilationContext) : x ∈ s.live → x ∉ s.pending.map (·.context) →
      Change s (.drop x) { s with cache := s.cache.drop x, live := s.live.filter (· ≠ x) }

variable {act : CacheAct}

theorem Change.owned (hs : Change s act s') (h : s.Owned) : s'.Owned := by
  cases hs with
  | idle act => exact h
  | register => exact h.register
  | search x a hx ha =>
      refine ⟨h.distinct, fun e he => (h.owners e he).congr fun i => Iff.rfl, h.kept, h.ours,
        h.registered, fun p hp => ?_⟩
      rcases List.mem_cons.mp hp with rfl | hp
      · exact ⟨hx, rfl, ha⟩
      · exact h.searching p hp
  | refuse x a hx =>
      have hgiven {y : CompilationContext} {b : AssemblyIdentity} :
          (s.refused x a).Given y b ↔ s.Given y b := given_error rfl
      refine ⟨h.distinct, fun e he => (h.owners e he).congr fun i => ?_, fun y hy b hb => ?_, h.ours,
        fun y hy => ?_, h.searching⟩
      · exact and_congr_right fun _ => hgiven
      · exact h.kept y hy b (hgiven.mp hb)
      · exact h.registered y (hy.imp_right fun ⟨b, hb⟩ => ⟨b, hgiven.mp hb⟩)
  | share x a hx he hs hentries =>
      obtain ⟨hin, rfl⟩ := AssemblyCache.mem_of_find? he
      exact h.own hx (AssemblyCache.contains_iff.mpr ⟨_, hin, rfl⟩) hs hentries
  | insert x a f hx ha hs hentries => exact h.insert hx ha hs hentries
  | drop x hx hidle => exact h.drop hx hidle

theorem Owned.change_back (h : s.Owned) {i : Nat} {p : PendingSearch} (hp : s.pending[i]? = some p)
    (tagHelpers : List TagHelper) :
    Change s (.back i tagHelpers) (s.step (.back i tagHelpers)) := by
  obtain ⟨hx, hid, hmiss⟩ := h.searching p (List.mem_of_getElem? hp)
  have hstep : s.step (.back i tagHelpers) =
      { s with pending := s.pending.eraseIdx i }.settle p.context p.assembly
        (.ok (s.cache.keep p.assembly tagHelpers p.context.id)) := by
    simp only [step, hp]
    rw [AssemblyCache.get, if_neg (not_not.mpr ((h.ours _ hx).trans hid.symm)),
      AssemblyCache.contains_eq_false.mp hmiss]
  rw [hstep]
  cases hfound : s.cache.find? p.assembly with
  | some e =>
      rw [AssemblyCache.keep_of_find? hfound]
      exact .share _ _ hx hfound ⟨rfl, rfl, rfl, List.eraseIdx_subset, rfl⟩ rfl rfl
  | none =>
      have ha := AssemblyCache.contains_eq_false.mpr hfound
      rw [AssemblyCache.keep_of_contains ha]
      exact .insert _ _ ⟨s.cache.searches, tagHelpers⟩ hx ha
        ⟨rfl, rfl, rfl, List.eraseIdx_subset, rfl⟩ rfl rfl

theorem change_ask (s : CacheSession) (x : CompilationContext) (a : AssemblyIdentity) :
    Change s (.ask x a) (s.step (.ask x a)) := by
  rw [step]
  by_cases hcache : x.cache = s.cache.id
  · by_cases hx : x ∈ s.live
    · rw [if_neg (not_and_of_not_right _ (not_not.mpr hx))]
      cases hfound : s.cache.find? a with
      | none =>
          have ha := AssemblyCache.contains_eq_false.mpr hfound
          rw [if_pos ⟨hcache, ha⟩]
          exact .search x a hx ha
      | some e =>
          have ha : s.cache.contains a ≠ false := by
            rw [AssemblyCache.contains, hfound]
            exact Bool.noConfusion
          rw [if_neg (not_and_of_not_right _ ha), AssemblyCache.get, if_neg (not_not.mpr hcache),
            hfound]
          exact .share x a hx hfound ⟨rfl, rfl, rfl, List.Subset.refl _, rfl⟩ rfl rfl
    · rw [if_pos ⟨hcache, hx⟩]
      exact .idle _
  · rw [if_neg (not_and_of_not_left _ hcache), if_neg (not_and_of_not_left _ hcache),
      AssemblyCache.get, if_pos hcache]
    exact .refuse x a hcache

theorem Owned.change_step (h : s.Owned) (act : CacheAct) : Change s act (s.step act) := by
  cases act with
  | register => exact .register
  | ask x a => exact change_ask s x a
  | back i tagHelpers =>
      cases hp : s.pending[i]? with
      | none =>
          simp only [step, hp]
          exact .idle _
      | some p => exact h.change_back hp tagHelpers
  | drop x =>
      rw [step]
      split
      · next hx => exact .drop x hx.1 hx.2
      · exact .idle _

/-- Asking, what the search does meanwhile and coming back are together one call of `AssemblyCache.get` with
    that search. -/
theorem run_nested {inside : List CacheAct} {during : CacheSession}
    (hduring : (s.step (.ask x a)).run inside = during)
    (hpending : during.pending = ⟨x, a, s.cache⟩ :: s.pending) (tagHelpers : List TagHelper) :
    s.run (.ask x a :: inside ++ [.back 0 tagHelpers]) =
      { during with pending := s.pending }.settle x a
        (s.cache.get x a fun _ => (tagHelpers, during.cache)) := by
  have hrun : s.run (.ask x a :: inside ++ [.back 0 tagHelpers]) = during.step (.back 0 tagHelpers) := by
    rw [← hduring, run, List.foldl_append]
    rfl
  rw [hrun]
  simp only [step, hpending]
  rfl

theorem owned_step (h : s.Owned) (act : CacheAct) : (s.step act).Owned :=
  (h.change_step act).owned h

theorem owned_run (h : s.Owned) (acts : List CacheAct) : (s.run acts).Owned := by
  induction acts generalizing s with
  | nil => exact h
  | cons act acts ih => exact ih (owned_step h act)

/-- A new cache has no entries and nobody asks it. -/
theorem owned_new (number : Nat) : Owned { cache := { id := number } } where
  distinct := List.nodup_nil
  owners _ he := absurd he List.not_mem_nil
  kept _ hx := absurd hx List.not_mem_nil
  ours _ hx := absurd hx List.not_mem_nil
  registered x hx := by
    rcases hx with hx | ⟨a, f, hf⟩
    · exact absurd hx List.not_mem_nil
    · exact absurd hf List.not_mem_nil
  searching _ hp := absurd hp List.not_mem_nil

/-- The cache has an assembly if and only if a live context has been given it. -/
theorem Owned.contains_iff (h : s.Owned) (a : AssemblyIdentity) :
    s.cache.contains a = true ↔ ∃ x ∈ s.live, s.Given x a := by
  constructor
  · intro ha
    obtain ⟨e, he, rfl⟩ := AssemblyCache.contains_iff.mp ha
    obtain ⟨i, hi⟩ := List.exists_mem_of_ne_nil _ (h.owners e he).owned
    obtain ⟨hlive, hgiven⟩ := ((h.owners e he).mem_iff i).mp hi
    exact ⟨_, hlive, hgiven⟩
  · rintro ⟨x, hx, hgiven⟩
    exact h.kept x hx a hgiven

/-! ## While an entry lives -/

/-- From one time to another everyone is given the same for an assembly, and no search for it begins. -/
structure Serves (s s' : CacheSession) (a : AssemblyIdentity) (f : Finding) : Prop where
  id : s'.cache.id = s.cache.id
  found : (s'.cache.find? a).map (·.finding) = some f
  answers : ∃ given, s'.answers = s.answers ++ given ∧
    ∀ r ∈ given, r.assembly = a → r.context.cache = s.cache.id → r.result = .ok f
  searched : s'.searched.count a = s.searched.count a

theorem Serves.trans {s'' : CacheSession} (h : s.Serves s' a f) (h' : s'.Serves s'' a f) :
    s.Serves s'' a f where
  id := h'.id.trans h.id
  found := h'.found
  answers := by
    obtain ⟨given, hgiven, hok⟩ := h.answers
    obtain ⟨given', hgiven', hok'⟩ := h'.answers
    refine ⟨given ++ given', by rw [hgiven', hgiven, List.append_assoc], fun r hr => ?_⟩
    rcases List.mem_append.mp hr with hr | hr
    · exact hok r hr
    · rw [← h.id]
      exact hok' r hr
  searched := h'.searched.trans h.searched

/-- Nothing is answered and no search for the assembly begins. -/
theorem serves_silent (hid : s'.cache.id = s.cache.id)
    (hfound : (s'.cache.find? a).map (·.finding) = some f) (hanswers : s'.answers = s.answers)
    (hsearched : s'.searched.count a = s.searched.count a) : s.Serves s' a f :=
  ⟨hid, hfound, ⟨[], by rw [hanswers, List.append_nil], fun _ hr => absurd hr List.not_mem_nil⟩,
    hsearched⟩

/-- What the cache has of an assembly is the finding of any of its entries for it. -/
theorem Owned.found (h : s.Owned) {e : CachedAssembly} (he : e ∈ s.cache.entries) :
    (s.cache.find? e.assembly).map (·.finding) = some e.finding := by
  rw [AssemblyCache.find?_eq_some h.distinct he]
  rfl

/-- An act that leaves an assembly in the cache changes nothing about it. -/
theorem Change.serves (hs : Change s act s') (h : s.Owned) {e : CachedAssembly}
    (he : e ∈ s.cache.entries) (ha : s'.cache.contains e.assembly = true) :
    s.Serves s' e.assembly e.finding := by
  have h' := hs.owned h
  have hhas : s.cache.contains e.assembly = true := AssemblyCache.contains_iff.mpr ⟨e, he, rfl⟩
  -- only an act about this very assembly could matter, and it finds the assembly there
  cases hs with
  | idle act => exact serves_silent rfl (h.found he) rfl rfl
  | register => exact serves_silent rfl (h.found he) rfl rfl
  | search x a hx hmiss =>
      have hne : a ≠ e.assembly := fun heq => Bool.eq_false_iff.mp hmiss (by rw [heq, hhas])
      refine serves_silent rfl (h.found he) rfl ?_
      rw [List.count_append, List.count_singleton, beq_false_of_ne hne]
      rfl
  | refuse x a hx =>
      refine ⟨rfl, h.found he, ⟨_, rfl, fun r hr _ hcache => ?_⟩, rfl⟩
      rw [List.mem_singleton.mp hr] at hcache
      exact absurd hcache hx
  | share x a hx hb hgives hentries hsearched =>
      refine ⟨hgives.id, ?_, ⟨_, hgives.answers, fun r hr hra _ => ?_⟩, by rw [hsearched]⟩
      · have hmem : _ ∈ (s.cache.own a x.id).entries := AssemblyCache.mem_own.mpr ⟨e, he, rfl⟩
        rw [← hentries] at hmem
        have hfound := h'.found hmem
        split at hfound
        · exact hfound
        · exact hfound
      · rw [List.mem_singleton.mp hr] at hra ⊢
        obtain rfl : a = e.assembly := hra
        rw [AssemblyCache.find?_eq_some h.distinct he] at hb
        rw [Option.some.inj hb]
  | insert x a f hx hmiss hgives hentries hsearched =>
      refine ⟨hgives.id, ?_, ⟨_, hgives.answers, fun r hr hra _ => ?_⟩, by rw [hsearched]⟩
      · exact h'.found (by rw [hentries]; exact List.mem_append_left _ he)
      · rw [List.mem_singleton.mp hr] at hra
        obtain rfl : a = e.assembly := hra
        exact absurd hhas (Bool.eq_false_iff.mp hmiss)
  | drop x hx hidle =>
      have hcache := h.ours x hx
      refine serves_silent ?_ ?_ rfl rfl
      · show (s.cache.drop x).id = s.cache.id
        rw [AssemblyCache.drop, if_neg (not_not.mpr hcache)]
      · obtain ⟨e', he', hassembly⟩ := AssemblyCache.contains_iff.mp ha
        obtain ⟨⟨e₀, he₀, rfl⟩, -⟩ := (AssemblyCache.mem_drop hcache).mp he'
        have heq : e₀ = e := List.inj_on_of_nodup_map h.distinct he₀ he hassembly
        have hfound := h'.found he'
        rw [heq] at hfound
        exact hfound

/-- What comes into the cache is what a search has found, and whoever asked for it is given it. -/
theorem Change.inserts (hs : Change s act s') (h : s.Owned) (hmiss : s.cache.contains a = false)
    (ha : s'.cache.contains a = true) : ∃ x i f, act = .back i f.tagHelpers ∧
      (s'.cache.find? a).map (·.finding) = some f ∧
      s'.answers = s.answers ++ [⟨x, a, .ok f⟩] := by
  have hne := Bool.eq_false_iff.mp hmiss
  have h' := hs.owned h
  cases hs with
  | idle act => exact absurd ha hne
  | register => exact absurd ha hne
  | search x b hx hb => exact absurd ha hne
  | refuse x b hx => exact absurd ha hne
  | share x b hx hb hgives hentries hsearched =>
      refine absurd ?_ hne
      rw [← AssemblyCache.contains_own (c := s.cache) (a := b) (i := x.id) a]
      rw [AssemblyCache.contains_iff, hentries] at ha
      exact AssemblyCache.contains_iff.mpr ha
  | insert x b f hx hb hgives hentries hsearched =>
      obtain ⟨e, he, rfl⟩ := AssemblyCache.contains_iff.mp ha
      have hfound := h'.found he
      rw [hentries] at he
      rcases List.mem_append.mp he with he | he
      · exact absurd (AssemblyCache.contains_iff.mpr ⟨e, he, rfl⟩) hne
      · rw [List.mem_singleton.mp he] at hfound ⊢
        exact ⟨x, _, f, rfl, hfound, hgives.answers⟩
  | drop x hx hidle =>
      obtain ⟨e', he', rfl⟩ := AssemblyCache.contains_iff.mp ha
      obtain ⟨⟨e, he, rfl⟩, -⟩ := (AssemblyCache.mem_drop (h.ours x hx)).mp he'
      exact absurd (AssemblyCache.contains_iff.mpr ⟨e, he, rfl⟩) hne

/-- As long as an assembly stays in the cache, nothing changes about it. -/
theorem Owned.serves_run (h : s.Owned) {acts : List CacheAct}
    (hstays : ∀ before, before <+: acts → (s.run before).cache.contains a = true)
    (hfound : (s.cache.find? a).map (·.finding) = some f) : s.Serves (s.run acts) a f := by
  induction acts generalizing s with
  | nil => exact serves_silent rfl hfound rfl rfl
  | cons act acts ih =>
      obtain ⟨e, he, rfl⟩ := Option.map_eq_some_iff.mp hfound
      obtain ⟨hin, rfl⟩ := AssemblyCache.mem_of_find? he
      have hfirst := (h.change_step act).serves h hin (hstays [act] ⟨acts, rfl⟩)
      refine hfirst.trans (ih (owned_step h act) (fun before hbefore => ?_) hfirst.found)
      exact hstays (act :: before) (List.cons_prefix_cons.mpr ⟨rfl, hbefore⟩)

/-- Whatever happens around a cache, it has an assembly if and only if a live context has been given it; what
    comes into the cache is what a search has found, and while it is there everyone is given it and no search
    for it begins; and a context of another cache is turned away, with the cache as it was. -/
theorem sharing_run (number : Nat) (acts : List CacheAct) :
    let s := run { cache := { id := number } } acts
    (∀ a, s.cache.contains a = true ↔ ∃ x ∈ s.live, s.Given x a) ∧
    (∀ a act, s.cache.contains a = false → (s.step act).cache.contains a = true →
      ∃ x i f, act = .back i f.tagHelpers ∧
        ((s.step act).cache.find? a).map (·.finding) = some f ∧
        (s.step act).answers = s.answers ++ [⟨x, a, .ok f⟩]) ∧
    (∀ a f later, (s.cache.find? a).map (·.finding) = some f →
      (∀ before, before <+: later → (s.run before).cache.contains a = true) →
      s.Serves (s.run later) a f) ∧
    (∀ x a, x.cache ≠ s.cache.id →
      (∀ search, s.cache.get x a search = .error .foreignContext) ∧
      s.step (.ask x a) = s.refused x a) := by
  have h := owned_run (owned_new number) acts
  refine ⟨h.contains_iff, fun a act hmiss ha => (h.change_step act).inserts h hmiss ha,
    fun a f later hfound hstays => h.serves_run hstays hfound, fun x a hx => ⟨fun search => ?_, ?_⟩⟩
  · exact if_pos hx
  · rw [step, if_neg (not_and_of_not_left _ hx), if_neg (not_and_of_not_left _ hx),
      AssemblyCache.get, if_pos hx]
    rfl

/-- A context asks for an assembly whose search asks for another one. -/
def nestedUse : List CacheAct :=
  [.register, .ask ⟨0, 0⟩ ⟨"App", "1"⟩, .ask ⟨0, 0⟩ ⟨"Lib", "1"⟩, .back 0 [], .back 0 []]

/-- Both are in the cache until the context is dropped. -/
example : ((run { cache := { id := 0 } } nestedUse).cache.entries.map (·.assembly.name) =
      ["Lib".toList, "App".toList]) ∧
    (run { cache := { id := 0 } } (nestedUse ++ [.drop ⟨0, 0⟩])).cache.entries = [] := by
  decide

end CacheSession

end RazorLang
