import Mathlib.Logic.Relation
import RazorLang.Text.Basic

/-!
# Batches

How a work queue comes by the order of its work. Work waits in a table that keeps no order, under its key and
with the number that the key got when it arrived; every piece of work that arrives sends a signal to a worker.
The worker wakes at a signal, lets more work arrive, and takes one batch out of the table, key by key, which
it does by number. A piece of work that fails is reported.
-/

namespace RazorLang

/-- Work under a key, with the number that the key got when it arrived. -/
structure Ticket (α : Type) where
  key : Text
  number : Nat
  work : α
  deriving DecidableEq, Repr

/-- What a worker is doing. -/
inductive Worker (α : Type) where
  /-- Waits for a signal. -/
  | waits
  /-- Lets more work arrive. -/
  | delays
  /-- Takes the work of some keys out of the table, behind what it has taken. -/
  | collects (keys : List Text) (taken : List (Ticket α))
  /-- Does the rest of a batch. -/
  | works (batch : List (Ticket α))
  deriving DecidableEq, Repr

/-- A work queue with its worker. -/
structure BatchQueue (α : Type) where
  /-- Work that waits, in no particular order. -/
  table : List (Ticket α) := []
  /-- Numbers given out so far. -/
  issued : Nat := 0
  /-- Signals that the worker has not seen. -/
  signals : Nat := 0
  worker : Worker α := .waits
  /-- Work that has been done, the last one last. -/
  done : List α := []
  /-- Work that has failed, the last one last. -/
  failed : List α := []
  deriving DecidableEq, Repr

namespace BatchQueue

variable {α : Type}

/-- Puts work under a key: in the place of the work that waits there, or else with a new number. -/
def enqueue (q : BatchQueue α) (key : Text) (a : α) : BatchQueue α :=
  if q.table.any (·.key == key) then
    { q with
      table := q.table.map fun t => if t.key = key then { t with work := a } else t
      signals := q.signals + 1 }
  else
    { q with
      table := ⟨key, q.issued, a⟩ :: q.table
      issued := q.issued + 1
      signals := q.signals + 1 }

/-- Number of keys with work waiting. -/
def pending (q : BatchQueue α) : Nat := q.table.length

/-- The worker sees a signal. -/
inductive Wakes : BatchQueue α → BatchQueue α → Prop where
  | intro {q : BatchQueue α} {n : Nat} : q.worker = .waits → q.signals = n + 1 →
      Wakes q { q with signals := n, worker := .delays }

/-- What the worker does next, where `fails` holds of the work that fails. -/
inductive Step (fails : α → Bool) : BatchQueue α → BatchQueue α → Prop where
  | wake {q q' : BatchQueue α} : Wakes q q' → Step fails q q'
  /-- The delay is over: further signals are dropped, and the keys are noted in any order. -/
  | close {q : BatchQueue α} {keys : List Text} : q.worker = .delays →
      keys.Perm (q.table.map (·.key)) →
      Step fails q { q with signals := 0, worker := .collects keys [] }
  /-- The work of one key is taken out of the table, if it is there. -/
  | collect {q : BatchQueue α} {key : Text} {keys : List Text} {taken : List (Ticket α)} :
      q.worker = .collects (key :: keys) taken →
      Step fails q
        { q with
          table := q.table.filter (·.key ≠ key)
          worker := .collects keys (taken ++ q.table.filter (·.key = key)) }
  /-- The batch is put into the order of its numbers. -/
  | begin {q : BatchQueue α} {taken : List (Ticket α)} : q.worker = .collects [] taken →
      Step fails q { q with worker := .works (taken.mergeSort (·.number ≤ ·.number)) }
  | process {q : BatchQueue α} {t : Ticket α} {batch : List (Ticket α)} :
      q.worker = .works (t :: batch) →
      Step fails q
        { q with
          worker := .works batch
          done := q.done ++ [t.work]
          failed := if fails t.work then q.failed ++ [t.work] else q.failed }
  | rest {q : BatchQueue α} : q.worker = .works [] → Step fails q { q with worker := .waits }

/-- The worker has nothing to do. -/
def Quiet (fails : α → Bool) (q : BatchQueue α) : Prop := ∀ q', ¬ Step fails q q'

/-- Work arrives in order; meanwhile the worker may wake, but its delay is not over. -/
inductive Arrives : BatchQueue α → List (Text × α) → BatchQueue α → Prop where
  | nil (q : BatchQueue α) : Arrives q [] q
  | enqueue {q q' : BatchQueue α} {key : Text} {a : α} {work : List (Text × α)} :
      Arrives (q.enqueue key a) work q' → Arrives q ((key, a) :: work) q'
  | wake {q q₁ q' : BatchQueue α} {work : List (Text × α)} :
      Wakes q q₁ → Arrives q₁ work q' → Arrives q work q'

/-- Bursts of work arrive, and after each of them the worker does what it does until it has nothing to do.
    Noted are, for each burst, the work that was done after it and how much was waiting then. -/
inductive Serves (fails : α → Bool) :
    BatchQueue α → List (List (Text × α)) → List (List α × Nat) → BatchQueue α → Prop where
  | nil (q : BatchQueue α) : Serves fails q [] [] q
  | burst {q q₁ q₂ q' : BatchQueue α} {work : List (Text × α)} {bursts : List (List (Text × α))}
      {did : List α} {notes : List (List α × Nat)} :
      Arrives q work q₁ → Relation.ReflTransGen (Step fails) q₁ q₂ → q₂.Quiet fails →
      q₂.done = q.done ++ did → Serves fails q₂ bursts notes q' →
      Serves fails q (work :: bursts) ((did, q₂.pending) :: notes) q'

end BatchQueue

end RazorLang
