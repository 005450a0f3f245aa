import RazorLang.Text.Basic

/-!
# Work queues

A `WorkQueue` gathers work under keys. Work that arrives while work with the same key is waiting replaces it
and keeps its place, so a burst of updates of one document is one piece of work. When a window closes, all
that has been waiting is done, one piece after the other; what is added meanwhile waits for the next window.
-/

namespace RazorLang

/-- Work that waits, in the order in which its keys arrived. -/
structure WorkQueue (α : Type) where
  waiting : List (Text × α) := []
  /-- No more work is done. -/
  isCancelled : Bool := false
  deriving DecidableEq, Repr

/-- What comes of a piece of work. -/
structure WorkOutcome (α : Type) where
  /-- Further work. -/
  added : List (Text × α) := []
  /-- The work calls off everything that waits. -/
  cancels : Bool := false
  /-- The work failed; this keeps no other work from being done. -/
  fails : Bool := false

namespace WorkQueue

variable {α σ : Type}

/-- Puts work under a key: in the place of the work that waits there, or else at the end. -/
def put (key : Text) (a : α) : List (Text × α) → List (Text × α)
  | [] => [(key, a)]
  | (k, b) :: rest => if k = key then (k, a) :: rest else (k, b) :: put key a rest

/-- Adds work to the queue. -/
def add (q : WorkQueue α) (key : Text) (a : α) : WorkQueue α :=
  { q with waiting := put key a q.waiting }

/-- Adds several pieces of work, in order. -/
def addAll (q : WorkQueue α) (work : List (Text × α)) : WorkQueue α :=
  work.foldl (fun q (key, a) => q.add key a) q

/-- Calls off everything that waits. -/
def cancel (q : WorkQueue α) : WorkQueue α := { q with isCancelled := true }

/-- Number of keys with work waiting. -/
def pending (q : WorkQueue α) : Nat := q.waiting.length

/-- The queue after a piece of work. -/
def after (q : WorkQueue α) (o : WorkOutcome α) : WorkQueue α :=
  let q := q.addAll o.added
  if o.cancels then q.cancel else q

/-- Does pieces of work in order until the queue is called off. -/
def perform (process : σ → α → σ × WorkOutcome α) :
    List (Text × α) → WorkQueue α → σ → WorkQueue α × σ
  | [], q, s => (q, s)
  | (_, a) :: rest, q, s =>
    if q.isCancelled then (q, s)
    else
      let (s, o) := process s a
      perform process rest (q.after o) s

/-- Lets one window close. -/
def window (process : σ → α → σ × WorkOutcome α) (q : WorkQueue α) (s : σ) : WorkQueue α × σ :=
  if q.isCancelled then (q, s)
  else perform process q.waiting { q with waiting := [] } s

/-- Lets a number of windows close, one after the other. -/
def windows (process : σ → α → σ × WorkOutcome α) : Nat → WorkQueue α → σ → WorkQueue α × σ
  | 0, q, s => (q, s)
  | n + 1, q, s =>
    let (q, s) := q.window process s
    windows process n q s

end WorkQueue

end RazorLang
