import Mathlib.Data.List.Induction
import Mathlib.Data.List.Nodup
import Mathlib.Order.WellFounded
import RazorLang.Proofs.Sorting
import RazorLang.Proofs.Workspace.Publication
import RazorLang.Workspace.Batching

/-!
# Batches are the latest work of each key

Main statement: `BatchQueue.serves_latest` — of every burst of work the worker does the latest of each key, in
the order in which the keys first arrived, and then nothing is waiting; and so does a `WorkQueue`. The route:
putting work into the list that waits makes it the latest of each key (`WorkQueue.foldl_put`), the table of a
`BatchQueue` in the order of its numbers is that list (`BatchQueue.Ready`), and each step of the worker leads
from one stage of a batch to the next (`BatchQueue.Stage`).
-/

namespace RazorLang

namespace WorkQueue

variable {α σ : Type} {key : Text} {a : α} {waiting : List (Text × α)}

/-! ## The latest work of each key -/

/-- The work that arrived last under a key. -/
def lastOf? (work : List (Text × α)) (key : Text) : Option (Text × α) :=
  (work.reverse.lookup key).map (key, ·)

/-- Of some work in the order of its arrival, the latest of each key, in the order in which the keys first
    arrived. -/
def latest (work : List (Text × α)) : List (Text × α) :=
  (work.map Prod.fst).eraseDups.filterMap (lastOf? work)

theorem put_of_not_mem (h : key ∉ waiting.map Prod.fst) : put key a waiting = waiting ++ [(key, a)] := by
  induction waiting with
  | nil => rfl
  | cons x rest ih =>
      obtain ⟨hne, hrest⟩ := not_or.mp (mt List.mem_cons.mpr h)
      rw [put, if_neg (Ne.symm hne), ih hrest]
      rfl

/-- Work put under one of some keys changes what there is for that key. -/
theorem put_filterMap {keys : List Text} {f g : Text → Option (Text × α)} (hkey : key ∈ keys)
    (hnodup : keys.Nodup) (hf : ∀ k ∈ keys, ∃ b, f k = some (k, b)) (hg : ∀ k, k ≠ key → g k = f k)
    (hgkey : g key = some (key, a)) : put key a (keys.filterMap f) = keys.filterMap g := by
  induction keys with
  | nil => exact absurd hkey List.not_mem_nil
  | cons k keys ih =>
      obtain ⟨b, hb⟩ := hf k (List.mem_cons_self ..)
      obtain ⟨hfresh, hnodup⟩ := List.nodup_cons.mp hnodup
      rw [List.filterMap_cons_some hb, put]
      by_cases hk : k = key
      · subst hk
        rw [if_pos rfl, List.filterMap_cons_some hgkey]
        refine congrArg _ (List.filterMap_congr fun j hj => ?_)
        exact (hg j fun heq => hfresh (heq ▸ hj)).symm
      · rw [if_neg hk, List.filterMap_cons_some ((hg k hk).trans hb)]
        have hkey : key ∈ keys := (List.mem_cons.mp hkey).resolve_left (Ne.symm hk)
        rw [ih hkey hnodup fun j hj => hf j (List.mem_cons_of_mem k hj)]

theorem lastOf?_append (work : List (Text × α)) (key : Text) (a : α) (k : Text) :
    lastOf? (work ++ [(key, a)]) k = if k = key then some (key, a) else lastOf? work k := by
  rw [lastOf?, List.reverse_append, List.reverse_singleton, List.singleton_append, List.lookup_cons]
  by_cases hk : k = key
  · rw [if_pos hk, hk, beq_self_eq_true]
    rfl
  · rw [if_neg hk, beq_false_of_ne hk]
    rfl

/-- Under a key at which work has arrived there is a last piece of it. -/
theorem exists_lastOf? {work : List (Text × α)} {k : Text} (h : k ∈ work.map Prod.fst) :
    ∃ b, lastOf? work k = some (k, b) := by
  obtain ⟨x, hx, rfl⟩ := List.mem_map.mp h
  obtain ⟨b, hb⟩ := Option.isSome_iff_exists.mp
    (List.lookup_isSome_iff.mpr ⟨x, List.mem_reverse.mpr hx, beq_self_eq_true _⟩)
  exact ⟨b, by rw [lastOf?, hb]; rfl⟩

theorem nodup_eraseDups (keys : List Text) : keys.eraseDups.Nodup := by
  induction hn : keys.length using Nat.strong_induction_on generalizing keys with
  | _ n ih =>
      cases keys with
      | nil => exact List.nodup_nil
      | cons k keys =>
          rw [List.eraseDups_cons, List.nodup_cons, List.mem_eraseDups, List.mem_filter]
          refine ⟨fun h => absurd h.2 (by simp), ih _ ?_ _ rfl⟩
          rw [← hn]
          exact Nat.lt_succ_of_le (List.length_filter_le _ _)

/-- The latest work with one more piece is the latest work with that piece put into it. -/
theorem latest_append (work : List (Text × α)) (key : Text) (a : α) :
    latest (work ++ [(key, a)]) = put key a (latest work) := by
  have hlast (k : Text) (hk : k ∈ (work.map Prod.fst).eraseDups) : ∃ b, lastOf? work k = some (k, b) :=
    exists_lastOf? (List.mem_eraseDups.mp hk)
  have hother (k : Text) (hk : k ≠ key) : lastOf? (work ++ [(key, a)]) k = lastOf? work k := by
    rw [lastOf?_append, if_neg hk]
  have hself : lastOf? (work ++ [(key, a)]) key = some (key, a) := by
    rw [lastOf?_append, if_pos rfl]
  rw [latest, latest, List.map_append, List.eraseDups_append]
  by_cases hkey : key ∈ work.map Prod.fst
  · have hold : ([(key, a)].map Prod.fst).removeAll (work.map Prod.fst) = [] := by
      simp [List.removeAll, hkey]
    rw [hold, List.eraseDups_nil, List.append_nil]
    exact (put_filterMap (List.mem_eraseDups.mpr hkey) (nodup_eraseDups _) hlast hother hself).symm
  · have hnew : ([(key, a)].map Prod.fst).removeAll (work.map Prod.fst) = [key] := by
      simp [List.removeAll, hkey]
    have hfresh : key ∉ ((work.map Prod.fst).eraseDups.filterMap (lastOf? work)).map Prod.fst := by
      intro hmem
      obtain ⟨x, hx, hxkey⟩ := List.mem_map.mp hmem
      obtain ⟨k, hk, hkx⟩ := List.mem_filterMap.mp hx
      obtain ⟨b, hb⟩ := hlast k hk
      rw [hb] at hkx
      rw [← Option.some.inj hkx] at hxkey
      exact hkey (hxkey ▸ List.mem_eraseDups.mp hk)
    rw [put_of_not_mem hfresh, hnew, List.filterMap_append]
    refine congrArg₂ _ (List.filterMap_congr fun k hk => hother k fun heq => ?_) ?_
    · exact hkey (heq ▸ List.mem_eraseDups.mp hk)
    · exact List.filterMap_cons_some hself

theorem foldl_put (work : List (Text × α)) :
    work.foldl (fun waiting x => put x.1 x.2 waiting) [] = latest work := by
  induction work using List.reverseRecOn with
  | nil => rfl
  | append_singleton work x ih =>
      rw [List.foldl_append, ih, latest_append]
      rfl

/-- What is to be done at each of some waits: the latest work of each key that has arrived before it. -/
def latestDone (bursts : List (List (Text × α))) : List (List α × Nat) :=
  bursts.map fun work => ((latest work).map Prod.snd, 0)

/-! ## Windows -/

/-- Notes work that is done and may have failed. -/
def note (fails : α → Bool) (did : List α) (a : α) : List α × WorkOutcome α :=
  (did ++ [a], { fails := fails a })

/-- Bursts of work are added to a queue, and after each of them some windows close. Noted are, for each burst,
    the work that was done after it and how much was waiting then. -/
def served (fails : α → Bool) (n : Nat) :
    WorkQueue α → List (List (Text × α)) → List (List α × Nat) × WorkQueue α
  | q, [] => ([], q)
  | q, work :: bursts =>
    let (q, did) := (q.addAll work).windows (note fails) (n + 1) []
    let (notes, q') := served fails n q bursts
    ((did, q.pending) :: notes, q')

theorem addAll_eq (q : WorkQueue α) (work : List (Text × α)) :
    q.addAll work = { q with waiting := work.foldl (fun w x => put x.1 x.2 w) q.waiting } := by
  induction work generalizing q with
  | nil => rfl
  | cons x work ih => exact ih (q.add x.1 x.2)

theorem foldl_note (fails : α → Bool) (work : List (Text × α)) (did : List α) :
    work.foldl (fun did x => (note fails did x.2).1) did = did ++ work.map Prod.snd := by
  induction work generalizing did with
  | nil => exact (List.append_nil did).symm
  | cons x work ih =>
      rw [List.foldl_cons, ih, List.map_cons]
      exact List.append_assoc did [x.2] _

/-- The first of some windows does everything that waits. -/
theorem windows_note (fails : α → Bool) (n : Nat) {q : WorkQueue α} (hq : q.isCancelled = false)
    (did : List α) : q.windows (note fails) (n + 1) did =
      ({ q with waiting := [] }, did ++ q.waiting.map Prod.snd) := by
  have hwindow {q : WorkQueue α} (hq : q.isCancelled = false) (did : List α) :
      q.window (note fails) did = ({ q with waiting := [] }, did ++ q.waiting.map Prod.snd) := by
    have hidle : ({ q with waiting := [] } : WorkQueue α).isCancelled = false := hq
    rw [window, if_neg (by rw [hq]; exact Bool.false_ne_true),
      perform_eq_foldl (fun _ _ => rfl) (fun _ _ => rfl) hidle, foldl_note]
  rw [windows, hwindow hq]
  generalize did ++ q.waiting.map Prod.snd = did
  induction n generalizing did with
  | zero => rfl
  | succ n ih =>
      show windows _ (n + 1) _ _ = _
      have hidle : ({ q with waiting := [] } : WorkQueue α).isCancelled = false := hq
      rw [windows, hwindow hidle, List.map_nil, List.append_nil]
      exact ih did

theorem served_eq (fails : α → Bool) (n : Nat) (bursts : List (List (Text × α))) :
    served fails n {} bursts = (latestDone bursts, {}) := by
  induction bursts with
  | nil => rfl
  | cons work bursts ih =>
      rw [served, addAll_eq, foldl_put, windows_note fails n rfl]
      show ((_, _) :: (served fails n {} bursts).1, (served fails n {} bursts).2) = _
      rw [ih]
      rfl

end WorkQueue

/-! ## Tickets -/

namespace Ticket

variable {α : Type} {ts us : List (Ticket α)}

/-- The key and the work of a ticket. -/
def entry (t : Ticket α) : Text × α := (t.key, t.work)

/-- The ticket with other work, if it is under a key. -/
def replace (key : Text) (a : α) (t : Ticket α) : Ticket α :=
  if t.key = key then { t with work := a } else t

theorem key_replace (key : Text) (a : α) (t : Ticket α) : (replace key a t).key = t.key := by
  unfold replace
  split
  · rfl
  · rfl

theorem number_replace (key : Text) (a : α) (t : Ticket α) : (replace key a t).number = t.number := by
  unfold replace
  split
  · rfl
  · rfl

/-- The tickets are in the order of their numbers, and no two are alike. -/
def Ordered (ts : List (Ticket α)) : Prop := ts.Pairwise (·.number < ·.number)

/-- Tickets in any order are brought into the order of their numbers. -/
theorem Ordered.mergeSort_eq (hts : Ordered ts) (h : us.Perm ts) :
    us.mergeSort (fun t u => t.number ≤ u.number) = ts := by
  have hperm := (us.mergeSort_perm fun t u => t.number ≤ u.number).trans h
  have hnodup : (ts.map (·.number)).Nodup := List.pairwise_map.mpr (hts.imp Nat.ne_of_lt)
  have hsorted : (us.mergeSort fun t u => t.number ≤ u.number).Pairwise (·.number ≤ ·.number) :=
    pairwise_mergeSort_key _ us
  refine hperm.eq_of_pairwise (fun t u ht hu htu hut => ?_) hsorted (hts.imp Nat.le_of_lt)
  exact List.inj_on_of_nodup_map hnodup (hperm.mem_iff.mp ht) hu (Nat.le_antisymm htu hut)

/-- Tickets of one key that are put with the taken ones are taken out of those that are left. -/
theorem perm_taken (taken table : List (Ticket α)) (key : Text) :
    (taken ++ table.filter (·.key = key) ++ table.filter (·.key ≠ key)).Perm (taken ++ table) := by
  have hsplit : (fun t : Ticket α => decide (t.key ≠ key)) = fun t => !decide (t.key = key) :=
    funext fun t => decide_not
  rw [hsplit, List.append_assoc]
  exact (List.filter_append_perm _ table).append_left _

/-- Replacing work under a key that waits is putting work under it. -/
theorem map_entry_replace {key : Text} (a : α) (hkey : key ∈ ts.map (·.key))
    (hnodup : (ts.map (·.key)).Nodup) :
    (ts.map (replace key a)).map entry = WorkQueue.put key a (ts.map entry) := by
  induction ts with
  | nil => exact absurd hkey List.not_mem_nil
  | cons t ts ih =>
      obtain ⟨hfresh, hnodup⟩ := List.nodup_cons.mp hnodup
      by_cases ht : t.key = key
      · have hrest : ts.map (replace key a) = ts := by
          refine (List.map_congr_left fun u hu => if_neg fun heq => hfresh ?_).trans (List.map_id _)
          have hmem : u.key ∈ ts.map (·.key) := List.mem_map_of_mem hu
          rw [heq, ← ht] at hmem
          exact hmem
        rw [List.map_cons, List.map_cons, List.map_cons, hrest, replace, if_pos ht, entry, entry,
          WorkQueue.put, if_pos ht]
      · have hkey : key ∈ ts.map (·.key) := (List.mem_cons.mp hkey).resolve_left (Ne.symm ht)
        rw [List.map_cons, List.map_cons, List.map_cons, ih hkey hnodup, replace, if_neg ht, entry,
          WorkQueue.put, if_neg ht]

end Ticket

namespace BatchQueue

open Ticket

variable {α : Type} {fails : α → Bool} {q q' : BatchQueue α} {ts : List (Ticket α)}

/-! ## Arrival -/

/-- Nothing of the tickets that wait has been taken yet, and the worker will come for them. -/
structure Ready (q : BatchQueue α) (ts : List (Ticket α)) : Prop where
  perm : ts.Perm q.table
  ordered : Ordered ts
  below : ∀ t ∈ ts, t.number < q.issued
  nodup : (ts.map (·.key)).Nodup
  woken : q.worker = .waits ∧ (ts ≠ [] → 0 < q.signals) ∨ q.worker = .delays

theorem Ready.enqueue (h : q.Ready ts) (key : Text) (a : α) : ∃ us, (q.enqueue key a).Ready us ∧
    us.map entry = WorkQueue.put key a (ts.map entry) := by
  have hmem : key ∈ q.table.map (·.key) ↔ key ∈ ts.map (·.key) := (h.perm.map _).mem_iff.symm
  have hany : q.table.any (·.key == key) = true ↔ key ∈ q.table.map (·.key) := by
    simp only [List.any_eq_true, beq_iff_eq, List.mem_map]
  unfold BatchQueue.enqueue
  -- work under a key that waits keeps the place of the key; under another one it comes last
  by_cases hkey : key ∈ q.table.map (·.key)
  · rw [if_pos (hany.mpr hkey)]
    have hkeys : (ts.map (replace key a)).map (·.key) = ts.map (·.key) := by
      rw [List.map_map]
      exact List.map_congr_left fun t _ => key_replace key a t
    refine ⟨ts.map (replace key a), ⟨h.perm.map _, ?_, ?_, ?_, ?_⟩,
      map_entry_replace a (hmem.mp hkey) h.nodup⟩
    · refine List.pairwise_map.mpr (h.ordered.imp fun hlt => ?_)
      rw [number_replace, number_replace]
      exact hlt
    · intro t ht
      obtain ⟨u, hu, rfl⟩ := List.mem_map.mp ht
      rw [number_replace]
      exact h.below u hu
    · rw [hkeys]
      exact h.nodup
    · exact h.woken.imp_left fun hw => ⟨hw.1, fun _ => Nat.succ_pos _⟩
  · rw [if_neg (mt hany.mp hkey)]
    have hfresh : key ∉ (ts.map entry).map Prod.fst := by
      rw [List.map_map]
      exact mt hmem.mpr hkey
    refine ⟨ts ++ [⟨key, q.issued, a⟩], ⟨?_, ?_, ?_, ?_, ?_⟩, ?_⟩
    · exact List.perm_append_comm.trans (h.perm.cons _)
    · refine List.pairwise_append.mpr ⟨h.ordered, List.pairwise_singleton _ _, fun t ht u hu => ?_⟩
      rw [List.mem_singleton.mp hu]
      exact h.below t ht
    · intro t ht
      rcases List.mem_append.mp ht with ht | ht
      · exact Nat.lt_succ_of_lt (h.below t ht)
      · rw [List.mem_singleton.mp ht]
        exact Nat.lt_succ_self _
    · rw [List.map_append]
      refine List.Nodup.append h.nodup (List.nodup_singleton _) fun k hk hk' => ?_
      rw [List.mem_singleton.mp hk'] at hk
      exact mt hmem.mpr hkey hk
    · exact h.woken.imp_left fun hw => ⟨hw.1, fun _ => Nat.succ_pos _⟩
    · rw [WorkQueue.put_of_not_mem hfresh, List.map_append]
      rfl

theorem Ready.wake (h : q.Ready ts) (hwakes : Wakes q q') : q'.Ready ts := by
  obtain ⟨-, -⟩ := hwakes
  exact ⟨h.perm, h.ordered, h.below, h.nodup, Or.inr rfl⟩

/-- What has arrived waits as it would in a list that work is put into. -/
theorem Ready.arrives {work : List (Text × α)} (harrives : Arrives q work q') (h : q.Ready ts) :
    ∃ us, q'.Ready us ∧ us.map entry = work.foldl (fun w x => WorkQueue.put x.1 x.2 w) (ts.map entry) ∧
      q'.done = q.done := by
  induction harrives generalizing ts with
  | nil q => exact ⟨ts, h, rfl, rfl⟩
  | @enqueue q _ key a _ _ ih =>
      obtain ⟨us, hus, hentries⟩ := h.enqueue key a
      obtain ⟨vs, hvs, hventries, hdone⟩ := ih hus
      refine ⟨vs, hvs, hventries.trans (by rw [hentries]; rfl), hdone.trans ?_⟩
      unfold BatchQueue.enqueue
      split
      · rfl
      · rfl
  | wake hwakes _ ih =>
      obtain ⟨us, hus, hentries, hdone⟩ := ih (h.wake hwakes)
      refine ⟨us, hus, hentries, hdone.trans ?_⟩
      obtain ⟨-, -⟩ := hwakes
      rfl

/-! ## Stages of a batch -/

/-- How far the worker is with some tickets, where `done` was done before them. -/
inductive Stage (done : List α) (ts : List (Ticket α)) : BatchQueue α → Prop where
  | ready {q : BatchQueue α} : q.Ready ts → q.done = done → Stage done ts q
  | collects {q : BatchQueue α} {keys : List Text} {taken : List (Ticket α)} :
      q.worker = .collects keys taken → Ordered ts → (taken ++ q.table).Perm ts →
      (∀ t ∈ q.table, t.key ∈ keys) → q.signals = 0 → q.done = done → Stage done ts q
  | works {q : BatchQueue α} {before batch : List (Ticket α)} :
      q.worker = .works batch → q.table = [] → ts = before ++ batch → q.signals = 0 →
      q.done = done ++ before.map (·.work) → Stage done ts q
  | finished {q : BatchQueue α} : q.worker = .waits → q.table = [] → q.signals = 0 →
      q.done = done ++ ts.map (·.work) → Stage done ts q

variable {done : List α}

/-- Each step of the worker leads from one stage to the next. -/
theorem Stage.step (hstage : Stage done ts q) (h : Step fails q q') : Stage done ts q' := by
  -- a stage says what the worker is at, which rules out the steps of a worker that is at something else
  cases hstage with
  | ready hready hdone =>
      cases h with
      | wake hwakes =>
          have hready' := hready.wake hwakes
          obtain ⟨-, -⟩ := hwakes
          exact .ready hready' hdone
      | close _ hkeys =>
          refine .collects rfl hready.ordered hready.perm.symm (fun t ht => ?_) rfl hdone
          exact hkeys.mem_iff.mpr (List.mem_map_of_mem ht)
      | collect hworker | begin hworker | process hworker | rest hworker =>
          rcases hready.woken with ⟨hwaits, -⟩ | hdelays
          · exact nomatch hwaits.symm.trans hworker
          · exact nomatch hdelays.symm.trans hworker
  | collects hworker hordered hperm hkeys hsignals hdone =>
      cases h with
      | wake hwakes =>
          obtain ⟨hwaits, -⟩ := hwakes
          exact nomatch hworker.symm.trans hwaits
      | close hdelays _ => exact nomatch hworker.symm.trans hdelays
      | @collect key _ _ hcollects =>
          obtain ⟨rfl, rfl⟩ := Worker.collects.inj (hworker.symm.trans hcollects)
          refine .collects rfl hordered ?_ (fun t ht => ?_) hsignals hdone
          · exact (perm_taken _ q.table key).trans hperm
          · obtain ⟨ht, hne⟩ := List.mem_filter.mp ht
            exact (List.mem_cons.mp (hkeys t ht)).resolve_left (of_decide_eq_true hne)
      | @begin taken hcollects =>
          obtain ⟨rfl, htaken⟩ := Worker.collects.inj (hworker.symm.trans hcollects)
          -- every ticket that is left has one of the keys still to be collected, and there are none
          have htable : q.table = [] :=
            List.eq_nil_iff_forall_not_mem.mpr fun t ht => absurd (hkeys t ht) List.not_mem_nil
          rw [htable, List.append_nil, htaken] at hperm
          have hbatch : ts = [] ++ taken.mergeSort fun t u => t.number ≤ u.number :=
            (hordered.mergeSort_eq hperm).symm
          exact .works rfl htable hbatch hsignals (hdone.trans (List.append_nil _).symm)
      | process hworks => exact nomatch hworker.symm.trans hworks
      | rest hworks => exact nomatch hworker.symm.trans hworks
  | works hworker htable hts hsignals hdone =>
      cases h with
      | wake hwakes =>
          obtain ⟨hwaits, -⟩ := hwakes
          exact nomatch hworker.symm.trans hwaits
      | close hdelays _ => exact nomatch hworker.symm.trans hdelays
      | collect hcollects => exact nomatch hworker.symm.trans hcollects
      | begin hcollects => exact nomatch hworker.symm.trans hcollects
      | process hworks =>
          rename_i before _ t rest
          obtain rfl := Worker.works.inj (hworker.symm.trans hworks)
          have hrest : ts = (before ++ [t]) ++ rest := by
            rw [hts, List.append_assoc]
            rfl
          refine .works rfl htable hrest hsignals ?_
          show q.done ++ [t.work] = _
          rw [hdone, List.map_append, List.append_assoc]
          rfl
      | rest hworks =>
          obtain rfl := Worker.works.inj (hworker.symm.trans hworks)
          rw [List.append_nil] at hts
          rw [← hts] at hdone
          exact .finished rfl htable hsignals hdone
  | finished hworker htable hsignals hdone =>
      cases h with
      | wake hwakes =>
          obtain ⟨-, hpending⟩ := hwakes
          exact nomatch hsignals.symm.trans hpending
      | close hworks _ | collect hworks | begin hworks | process hworks | rest hworks =>
          exact nomatch hworker.symm.trans hworks

/-- When the worker has nothing to do, all tickets are done. -/
theorem Stage.quiet (hstage : Stage done ts q) (h : q.Quiet fails) :
    q.table = [] ∧ q.done = done ++ ts.map (·.work) ∧ q.worker = .waits := by
  cases hstage with
  | ready hready hdone =>
      rcases hready.woken with ⟨hwaits, hsignals⟩ | hdelays
      · have hnone : ts = [] := by
          by_contra hne
          obtain ⟨n, hn⟩ := Nat.exists_eq_succ_of_ne_zero (Nat.ne_of_gt (hsignals hne))
          exact h _ (.wake (.intro hwaits hn))
        subst hnone
        exact ⟨hready.perm.nil_eq.symm, hdone.trans (List.append_nil _).symm, hwaits⟩
      · exact absurd (.close hdelays (List.Perm.refl _)) (h _)
  | collects hworker =>
      rename_i keys taken _ _ _ _ _
      cases keys with
      | nil => exact absurd (.begin hworker) (h _)
      | cons key keys => exact absurd (.collect hworker) (h _)
  | works hworker =>
      rename_i before batch _ _ _ _
      cases batch with
      | nil => exact absurd (.rest hworker) (h _)
      | cons t batch => exact absurd (.process hworker) (h _)
  | finished hworker htable hsignals hdone => exact ⟨htable, hdone, hworker⟩

theorem Ready.stage (hready : q.Ready ts) (hrun : Relation.ReflTransGen (Step fails) q q') :
    Stage q.done ts q' := by
  induction hrun with
  | refl => exact .ready hready rfl
  | tail _ hstep ih => exact ih.step hstep

/-- A whole run of the worker does all tickets in the order of their numbers. -/
theorem Ready.run (hready : q.Ready ts) (hrun : Relation.ReflTransGen (Step fails) q q')
    (hquiet : q'.Quiet fails) : q'.Ready [] ∧ q'.done = q.done ++ ts.map (·.work) := by
  obtain ⟨htable, hdone, hworker⟩ := (hready.stage hrun).quiet hquiet
  refine ⟨⟨?_, List.Pairwise.nil, fun _ ht => absurd ht List.not_mem_nil, List.nodup_nil,
    Or.inl ⟨hworker, fun hne => absurd rfl hne⟩⟩, hdone⟩
  rw [htable]

/-! ## Runs end -/

/-- How far the worker is from the end of its work, if no more signals come. -/
def rank (q : BatchQueue α) : Nat × Nat × Nat :=
  match q.worker with
  | .waits => (q.signals, 0, 0)
  | .works batch => (q.signals, 1, batch.length)
  | .collects keys _ => (q.signals, 2, keys.length)
  | .delays => (q.signals, 3, 0)

/-- Each step of the worker leads nearer to the end of its work. -/
theorem Step.rank_lt (h : Step fails q q') :
    Prod.Lex (· < ·) (Prod.Lex (· < ·) (· < ·)) q'.rank q.rank := by
  have hphase {n i j : Nat} {k l : Nat} (hij : i < j) :
      Prod.Lex (· < ·) (Prod.Lex (· < ·) (· < ·)) (n, i, k) (n, j, l) := .right _ (.left _ _ hij)
  have hlength {n i : Nat} {k : Nat} :
      Prod.Lex (· < ·) (Prod.Lex (· < ·) (· < ·)) (n, i, k) (n, i, k + 1) :=
    .right _ (.right _ (Nat.lt_succ_self k))
  cases h with
  | wake hwakes =>
      obtain ⟨hwaits, hsignals⟩ := hwakes
      rw [rank, rank, hwaits, hsignals]
      exact .left _ _ (Nat.lt_succ_self _)
  | close hdelays hkeys =>
      rw [rank, rank, hdelays]
      rcases Nat.eq_zero_or_pos q.signals with hzero | hpos
      · dsimp only
        rw [hzero]
        exact hphase (by decide)
      · exact .left _ _ hpos
  | collect hcollects =>
      rw [rank, rank, hcollects]
      exact hlength
  | begin hcollects =>
      rw [rank, rank, hcollects]
      exact hphase (by decide)
  | process hworks =>
      rw [rank, rank, hworks]
      exact hlength
  | rest hworks =>
      rw [rank, rank, hworks]
      exact hphase (by decide)

/-- The worker does not go on for ever. -/
theorem wellFounded_step (fails : α → Bool) :
    WellFounded fun q' q : BatchQueue α => Step fails q q' := by
  have hlex : WellFounded (Prod.Lex (α := Nat) (β := Nat × Nat) (· < ·) (Prod.Lex (· < ·) (· < ·))) :=
    Nat.lt_wfRel.wf.prod_lex (Nat.lt_wfRel.wf.prod_lex Nat.lt_wfRel.wf)
  exact Subrelation.wf (fun h => h.rank_lt) (InvImage.wf rank hlex)

/-- Whatever the worker is doing, it comes to an end. -/
theorem exists_quiet (fails : α → Bool) (q : BatchQueue α) :
    ∃ q', Relation.ReflTransGen (Step fails) q q' ∧ q'.Quiet fails := by
  induction q using (wellFounded_step fails).induction with
  | _ q ih =>
      by_cases hquiet : q.Quiet fails
      · exact ⟨q, .refl, hquiet⟩
      · obtain ⟨q₁, hstep⟩ := not_forall_not.mp hquiet
        obtain ⟨q', hrun, hquiet'⟩ := ih q₁ hstep
        exact ⟨q', .head hstep hrun, hquiet'⟩

/-! ## Bursts -/

theorem ready_new : Ready ({} : BatchQueue α) [] :=
  ⟨.refl _, .nil, fun _ ht => absurd ht List.not_mem_nil, List.nodup_nil,
    Or.inl ⟨rfl, fun hne => absurd rfl hne⟩⟩

/-- After a burst, when the worker has nothing to do, the latest work of each key is done. -/
theorem Ready.burst {q₁ q₂ : BatchQueue α} {work : List (Text × α)} (hready : q.Ready [])
    (harrives : Arrives q work q₁) (hrun : Relation.ReflTransGen (Step fails) q₁ q₂)
    (hquiet : q₂.Quiet fails) :
    q₂.Ready [] ∧ q₂.done = q.done ++ (WorkQueue.latest work).map Prod.snd := by
  obtain ⟨ts, hts, hentries, hdone⟩ := hready.arrives harrives
  obtain ⟨hready₂, hdone₂⟩ := hts.run hrun hquiet
  rw [List.map_nil, WorkQueue.foldl_put] at hentries
  refine ⟨hready₂, hdone₂.trans ?_⟩
  rw [hdone, ← hentries, List.map_map]
  rfl

theorem Ready.pending_eq (h : q.Ready []) : q.pending = 0 := by
  rw [pending, ← h.perm.length_eq]
  rfl

theorem Serves.eq_latest {bursts : List (List (Text × α))} {notes : List (List α × Nat)}
    (hserves : Serves fails q bursts notes q') (hready : q.Ready []) :
    notes = WorkQueue.latestDone bursts ∧ q'.Ready [] := by
  induction hserves with
  | nil q => exact ⟨rfl, hready⟩
  | burst harrives hrun hquiet hdid _ ih =>
      obtain ⟨hready₂, hdone⟩ := hready.burst harrives hrun hquiet
      obtain ⟨hnotes, hready'⟩ := ih hready₂
      refine ⟨?_, hready'⟩
      rw [hnotes, hready₂.pending_eq, List.append_cancel_left (hdid.symm.trans hdone)]
      rfl

theorem exists_arrives (q : BatchQueue α) (work : List (Text × α)) : ∃ q', Arrives q work q' := by
  induction work generalizing q with
  | nil => exact ⟨q, .nil q⟩
  | cons x work ih =>
      obtain ⟨q', hq'⟩ := ih (q.enqueue x.1 x.2)
      exact ⟨q', .enqueue hq'⟩

theorem exists_serves (fails : α → Bool) (bursts : List (List (Text × α))) (hready : q.Ready []) :
    ∃ notes q', Serves fails q bursts notes q' := by
  induction bursts generalizing q with
  | nil => exact ⟨[], q, .nil q⟩
  | cons work bursts ih =>
      obtain ⟨q₁, harrives⟩ := exists_arrives q work
      obtain ⟨q₂, hrun, hquiet⟩ := exists_quiet fails q₁
      obtain ⟨hready₂, hdone⟩ := hready.burst harrives hrun hquiet
      obtain ⟨notes, q', hserves⟩ := ih hready₂
      exact ⟨_, q', .burst harrives hrun hquiet hdone hserves⟩

/-- The work that has failed is reported, and it is among the work that has been done. -/
def Reports (fails : α → Bool) (q : BatchQueue α) : Prop := q.failed = q.done.filter fails

theorem Step.reports (h : Step fails q q') (hq : q.Reports fails) : q'.Reports fails := by
  cases h with
  | wake hwakes =>
      obtain ⟨-, -⟩ := hwakes
      exact hq
  | close _ _ | collect _ | begin _ | rest _ => exact hq
  | @process t _ _ =>
      show (if fails t.work then q.failed ++ [t.work] else q.failed) = (q.done ++ [t.work]).filter fails
      rw [List.filter_append, ← hq, List.filter_singleton]
      cases fails t.work with
      | true => rfl
      | false => exact (List.append_nil _).symm

theorem reports_run (h : Relation.ReflTransGen (Step fails) q q') (hq : q.Reports fails) :
    q'.Reports fails := by
  induction h with
  | refl => exact hq
  | tail _ hstep ih => exact hstep.reports ih

theorem Arrives.reports {work : List (Text × α)} (h : Arrives q work q') (hq : q.Reports fails) :
    q'.Reports fails := by
  induction h with
  | nil q => exact hq
  | @enqueue q _ key a _ _ ih =>
      refine ih ?_
      unfold BatchQueue.enqueue
      split
      · exact hq
      · exact hq
  | wake hwakes _ ih => exact ih (Step.reports (.wake hwakes) hq)

theorem Serves.reports {bursts : List (List (Text × α))} {notes : List (List α × Nat)}
    (h : Serves fails q bursts notes q') (hq : q.Reports fails) : q'.Reports fails := by
  induction h with
  | nil q => exact hq
  | burst harrives hrun _ _ _ ih => exact ih (reports_run hrun (harrives.reports hq))

/-- Of each burst of work the worker does the latest of each key, in the order in which the keys first
    arrived, and then nothing is waiting; work that fails is done and reported like all other work. A list
    that work is put into, and that is done when a window closes, gives the same. -/
theorem serves_latest (fails : α → Bool) (bursts : List (List (Text × α))) :
    (∃ notes q, Serves fails {} bursts notes q) ∧
    (∀ notes q, Serves fails {} bursts notes q →
      notes = WorkQueue.latestDone bursts ∧ q.pending = 0 ∧ q.failed = q.done.filter fails) ∧
    ∀ n, WorkQueue.served fails n {} bursts = (WorkQueue.latestDone bursts, {}) := by
  refine ⟨exists_serves fails bursts ready_new, fun notes q hserves => ?_,
    fun n => WorkQueue.served_eq fails n bursts⟩
  obtain ⟨hnotes, hready⟩ := hserves.eq_latest ready_new
  exact ⟨hnotes, hready.pending_eq, hserves.reports rfl⟩

/-- Work under two keys, one of which gets new work meanwhile and fails. -/
example : WorkQueue.latestDone [[("a", 1), ("b", 2), ("a", 3)], [("b", 4)]] = [([3, 2], 0), ([4], 0)] := by
  decide

end BatchQueue

end RazorLang
