/-
# Deferred reclamation by a ring of counters (`src/runtime/rcu.c`)

Each thread queues the pointers it wants freed (`rcu_defer_free`) and posts its
queue position to its successor on the ring of threads; `rcu_update` passes the
positions of the other threads on and frees up to the position that came back.

* Every read and write of `rcu_`, `rcu_last_posted_` and the queues is one step.
* Queue positions are `uint32_t`: they wrap at `2 ^ 32`.  `rcu_` and
  `rcu_last_posted_` are `uint64_t`, so the distance that `rcu_defer_free`
  compares with its threshold is taken modulo `2 ^ 64`.
* A failed queue-not-full assertion ends the run (the step is not enabled).
* `log` is history: when a pointer went on a queue, when it was freed, and every
  step a thread took inside `rcu_update`.  No step reads it.
-/
import Ssr.Interleaving

open Interleaving

namespace Rcu

/-! ## The ring and the queues -/

/-- What the history records. -/
inductive Act where
  | put (t p : ℕ)
  | free (t p : ℕ)
  | update (t : ℕ)
  deriving DecidableEq, Repr

/-- The globals of `rcu.c` with the queue `pending_[t]` of each thread spread over
`head`, `tail` and `x`, and the history. -/
structure Ring where
  rcu : ℕ → ℕ → ℕ
  lastPosted : ℕ → ℕ → ℕ
  head : ℕ → ℕ
  tail : ℕ → ℕ
  x : ℕ → ℕ → ℕ
  log : List Act

/-- `RCU_POST_THRESHOLD`. -/
def postThreshold : ℕ := 10

/-- The number of slots of a queue, `1 << RCU_QUEUE_SCALE`. -/
def queueSize : ℕ := 2 ^ 20

/-- Where a thread stands, with the locals that are live there. -/
inductive Pc where
  | returned
  | deferHead (p : ℕ)
  | deferTail (p head : ℕ)
  | deferIndex (p : ℕ)
  | deferStore (p i : ℕ)
  | deferBump (p : ℕ)
  | deferCount
  | deferTest (head : ℕ)
  | deferPostLoad
  | deferPost (head : ℕ)
  | deferRecordLoad
  | deferRecord (head : ℕ)
  | updateTest (i : ℕ)
  | updateLast (i v : ℕ)
  | updateLoad (i : ℕ)
  | updateRecord (i x : ℕ)
  | updatePost (i x : ℕ)
  | freeTail
  | freeTest (tail : ℕ)
  | freeIndex
  | freeLoad (i : ℕ)
  | freeCall (p : ℕ)
  | freeBump
  deriving DecidableEq, Repr

/-- The input of a step: the start of a call, or the next step of the running one. -/
inductive Cmd where
  | deferFree (p : ℕ)
  | update
  | resume
  deriving DecidableEq, Repr

/-- `(thread_index + 1) % num_threads_`. -/
def nextIndex (N t : ℕ) : ℕ := (t + 1) % N

/-- The loop of `rcu_update` from index `i` on; it skips the thread's own index. -/
def updateFrom (N t i : ℕ) : Pc :=
  let i := if i = t then i + 1 else i
  if i < N then .updateTest i else .freeTail

/-- Write one cell of a two-dimensional array. -/
def set (a : ℕ → ℕ → ℕ) (j i v : ℕ) : ℕ → ℕ → ℕ :=
  Function.update a j (Function.update (a j) i v)

/-- Record a step of thread `t` inside `rcu_update`. -/
def Ring.tick (s : Ring) (t : ℕ) : Ring := { s with log := s.log ++ [.update t] }

/-- One atomic step of thread `t < N` in `rcu_defer_free` or `rcu_update`. -/
def step (N t : ℕ) (s : Ring) : Pc → Cmd → Option (Ring × Pc)
  | .returned, .deferFree p => if t < N ∧ p ≠ 0 then some (s, .deferHead p) else none
  | .returned, .update => if t < N then some (s, updateFrom N t 0) else none
  -- rcu_defer_free
  | .deferHead p, .resume => some (s, .deferTail p (s.head t))
  | .deferTail p head, .resume =>
    if (head + 1) % queueSize ≠ s.tail t % queueSize then some (s, .deferIndex p) else none
  | .deferIndex p, .resume => some (s, .deferStore p (s.head t % queueSize))
  | .deferStore p i, .resume => some ({ s with x := set s.x t i p }, .deferBump p)
  | .deferBump p, .resume =>
    some ({ s with head := Function.update s.head t ((s.head t + 1) % 2 ^ 32),
                   log := s.log ++ [.put t p] }, .deferCount)
  | .deferCount, .resume => some (s, .deferTest (s.head t))
  | .deferTest head, .resume =>
    if postThreshold ≤ (head + (2 ^ 64 - s.lastPosted t t)) % 2 ^ 64 then
      some (s, .deferPostLoad)
    else some (s, .returned)
  | .deferPostLoad, .resume => some (s, .deferPost (s.head t))
  | .deferPost head, .resume =>
    some ({ s with rcu := set s.rcu (nextIndex N t) t head }, .deferRecordLoad)
  | .deferRecordLoad, .resume => some (s, .deferRecord (s.head t))
  | .deferRecord head, .resume =>
    some ({ s with lastPosted := set s.lastPosted t t head }, .returned)
  -- rcu_update: pass the positions of the other threads on
  | .updateTest i, .resume => some (s.tick t, .updateLast i (s.rcu t i))
  | .updateLast i v, .resume =>
    if v = s.lastPosted t i then some (s.tick t, updateFrom N t (i + 1))
    else some (s.tick t, .updateLoad i)
  | .updateLoad i, .resume => some (s.tick t, .updateRecord i (s.rcu t i))
  | .updateRecord i x, .resume =>
    some ({ s with lastPosted := set s.lastPosted t i x }.tick t, .updatePost i x)
  | .updatePost i x, .resume =>
    some ({ s with rcu := set s.rcu (nextIndex N t) i x }.tick t, updateFrom N t (i + 1))
  -- rcu_update: free
  | .freeTail, .resume => some (s.tick t, .freeTest (s.tail t))
  | .freeTest tail, .resume =>
    if tail ≠ s.rcu t t then some (s.tick t, .freeIndex) else some (s.tick t, .returned)
  | .freeIndex, .resume => some (s.tick t, .freeLoad (s.tail t % queueSize))
  | .freeLoad i, .resume => some (s.tick t, .freeCall (s.x t i))
  | .freeCall p, .resume => some ({ s with log := s.log ++ [.free t p] }, .freeBump)
  | .freeBump, .resume =>
    some ({ s with tail := Function.update s.tail t ((s.tail t + 1) % 2 ^ 32) }.tick t,
      .freeTail)
  | _, _ => none

/-- A thread that has returned waits for a call. -/
@[simp] theorem step_returned_resume (N t : ℕ) (s : Ring) :
    step N t s .returned .resume = none := by
  simp only [step]

/-- All positions zero; `junk` is what `nbd_malloc` left in the queue slots. -/
def init (junk : ℕ → ℕ → ℕ) : Conf Ring Pc where
  shared :=
    { rcu := fun _ _ => 0, lastPosted := fun _ _ => 0, head := fun _ => 0, tail := fun _ => 0,
      x := junk, log := [] }
  thread := fun _ => .returned

/-- The interleaved system of `N` initialised threads. -/
abbrev sys (N : ℕ) : Conf Ring Pc → ℕ × Cmd → Option (Conf Ring Pc) :=
  interleave (step N)

/-! ## What the scheme is for -/

/-- The pointers that thread `t` put on its queue, oldest first. -/
def puts (t : ℕ) (log : List Act) : List ℕ :=
  log.filterMap fun | .put t' p => if t' = t then some p else none | _ => none

/-- The pointers that thread `t` freed, oldest first. -/
def frees (t : ℕ) (log : List Act) : List ℕ :=
  log.filterMap fun | .free t' p => if t' = t then some p else none | _ => none

/-- The grace period: whenever thread `t` frees a pointer, it is the next one in
the order in which `t` queued them, and since it was queued every other thread
took a step inside an `rcu_update` of its own. -/
def GracePeriod (N : ℕ) (log : List Act) : Prop :=
  ∀ l r t p, log = l ++ .free t p :: r →
    ∃ a b, l = a ++ .put t p :: b ∧ (puts t a).length = (frees t l).length
      ∧ ∀ j, j < N → j ≠ t → .update j ∈ b

end Rcu
