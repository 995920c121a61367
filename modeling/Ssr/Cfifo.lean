/-
# The bounded queue `cfifo` (`src/fifo/cfifo.c`)

`cfifo_push` and `cfifo_pop` as programs of atomic steps: every load, store,
compare-and-swap and fetch-add of the source is one step, and any number of
threads take their steps in any order (`Interleaving.interleave`).

* `size_t` has `w` bits: `head`, `tail`, `sentinel` and `used` are counters
  modulo `2 ^ w`, so that wrap-around is visible to the model.
* The buffer has `size = n + 1` slots for a capacity of `n`; its contents come
  from `malloc` and are arbitrary.
* `pushed` and `popped` are history: the values in the order of the successful
  tail CAS (with the thread that made it) and of the successful head CAS.  No
  step reads them.
-/
import Ssr.Interleaving

open Interleaving

namespace Cfifo

/-! ## The queue and its threads -/

/-- `cfifo_s`, with the history of successful pushes and pops. -/
structure Fifo where
  head : ℕ
  tail : ℕ
  sentinel : ℕ
  used : ℕ
  bound : ℕ
  buffer : ℕ → ℕ
  pushed : List (ℕ × ℕ)
  popped : List ℕ

/-- What a finished call returned: `cfifo_push` a status, `cfifo_pop` a pointer
(`NULL` is `0`). -/
inductive Ret where
  | none
  | push (status : ℤ)
  | pop (value : ℕ)
  deriving DecidableEq, Repr

/-- Where a thread stands, with the locals that are live there.  `returned` is a
thread outside of any call. -/
inductive Pc where
  | returned (r : Ret)
  | pushTail (value : ℕ)
  | pushHead (value tail : ℕ)
  | pushCas (value tail : ℕ)
  | pushStore (value tail : ℕ)
  | pushSentinel (value tail : ℕ)
  | pushUsed
  | popSentinel
  | popHead (sentinel : ℕ)
  | popValue (head : ℕ)
  | popCas (head value : ℕ)
  | popUsed (value : ℕ)
  deriving DecidableEq, Repr

/-- The input of a step: the start of a call, or the next step of the running one. -/
inductive Cmd where
  | push (value : ℕ)
  | pop
  | resume
  deriving DecidableEq, Repr

/-- `size_t` increment. -/
def incr (w x : ℕ) : ℕ := (x + 1) % 2 ^ w

/-- `size_t` decrement. -/
def decr (w x : ℕ) : ℕ := (x + (2 ^ w - 1)) % 2 ^ w

/-- `cfifo_alloc`: one slot more than the capacity; `junk` is what `malloc` left
in the slots. -/
def alloc (w n : ℕ) (junk : ℕ → ℕ) : Fifo where
  head := 0
  tail := 0
  sentinel := 0
  used := 0
  bound := incr w n
  buffer := junk
  pushed := []
  popped := []

/-- One atomic step of thread `t` in `cfifo_push` or `cfifo_pop`. -/
def step (w t : ℕ) (q : Fifo) : Pc → Cmd → Option (Fifo × Pc)
  | .returned _, .push v => some (q, .pushTail v)
  | .returned _, .pop => some (q, .popSentinel)
  -- cfifo_push
  | .pushTail v, .resume => some (q, .pushHead v q.tail)
  | .pushHead v tail, .resume =>
    if incr w tail % q.bound = q.head % q.bound then some (q, .returned (.push (-1)))
    else some (q, .pushCas v tail)
  | .pushCas v tail, .resume =>
    if q.tail = tail then
      some ({ q with tail := incr w tail, pushed := q.pushed ++ [(v, t)] }, .pushStore v tail)
    else some (q, .pushTail v)
  | .pushStore v tail, .resume =>
    some ({ q with buffer := Function.update q.buffer (tail % q.bound) v }, .pushSentinel v tail)
  | .pushSentinel v tail, .resume =>
    if q.sentinel = tail then some ({ q with sentinel := incr w tail }, .pushUsed)
    else some (q, .pushSentinel v tail)
  | .pushUsed, .resume => some ({ q with used := incr w q.used }, .returned (.push 0))
  -- cfifo_pop
  | .popSentinel, .resume => some (q, .popHead q.sentinel)
  | .popHead sentinel, .resume =>
    if q.head % q.bound = sentinel % q.bound then some (q, .returned (.pop 0))
    else some (q, .popValue q.head)
  | .popValue head, .resume => some (q, .popCas head (q.buffer (head % q.bound)))
  | .popCas head v, .resume =>
    if q.head = head then
      some ({ q with head := incr w head, popped := q.popped ++ [v] }, .popUsed v)
    else some (q, .popSentinel)
  | .popUsed v, .resume => some ({ q with used := decr w q.used }, .returned (.pop v))
  | _, _ => none

/-- A fresh queue, no thread inside a call. -/
def init (w n : ℕ) (junk : ℕ → ℕ) : Conf Fifo Pc where
  shared := alloc w n junk
  thread := fun _ => .returned .none

/-- The interleaved system. -/
abbrev sys (w : ℕ) : Conf Fifo Pc → ℕ × Cmd → Option (Conf Fifo Pc) :=
  interleave (step w)

/-! ## What the queue is for -/

/-- FIFO safety: the counters are ordered, at most `n` elements are stored, and
what was popped is a prefix of what was pushed. -/
structure Fifo.Ordered (n : ℕ) (q : Fifo) : Prop where
  head_le : q.head ≤ q.sentinel
  sentinel_le : q.sentinel ≤ q.tail
  tail_le : q.tail ≤ q.head + n
  prefix_pushed : q.popped <+: q.pushed.map Prod.fst

instance (n : ℕ) (q : Fifo) : Decidable (q.Ordered n) :=
  decidable_of_iff
    (q.head ≤ q.sentinel ∧ q.sentinel ≤ q.tail ∧ q.tail ≤ q.head + n
      ∧ q.popped <+: q.pushed.map Prod.fst)
    ⟨fun ⟨h₁, h₂, h₃, h₄⟩ => ⟨h₁, h₂, h₃, h₄⟩,
      fun h => ⟨h.head_le, h.sentinel_le, h.tail_le, h.prefix_pushed⟩⟩

/-- The state before a pop loads `head`: the stale sentinel it holds makes the
emptiness test succeed, or there really is a published element at `head`. -/
def HeadPublished (_t : ℕ) (q : Fifo) (pc : Pc) (_c : Cmd) : Prop :=
  match pc with
  | .popHead sentinel => q.head % q.bound = sentinel % q.bound ∨ q.head < q.sentinel
  | _ => True

instance (t : ℕ) (q : Fifo) (pc : Pc) (c : Cmd) : Decidable (HeadPublished t q pc c) :=
  match pc with
  | .popHead _ => inferInstanceAs (Decidable (_ ∨ _))
  | .returned _ | .pushTail _ | .pushHead _ _ | .pushCas _ _ | .pushStore _ _
  | .pushSentinel _ _ | .pushUsed | .popSentinel | .popValue _ | .popCas _ _ | .popUsed _ =>
    isTrue trivial

end Cfifo
