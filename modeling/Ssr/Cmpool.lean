/-
# The memory pool (`src/manager/cmpool.c`)

A piece of memory is split into a header, an index table and equal blocks;
`cmpool_alloc` and `cmpool_free` claim and release blocks by compare-and-swap on the
states in the table.

* `size_t`, `ptrdiff_t` and `intptr_t` are words modulo `2 ^ 64`, `int` is signed with
  32 bits.  Block indices are `int`, so the index table is a function on them.
* Every load, store and compare-and-swap of `latestidx` and of a state is one step.  The
  other fields of the header do not change after `cmpool_init`.
* The names that the source does not declare are read as `head->blockbase` (in
  `cmpool_init`) and `max_idx` (in `regbufidx`); `ATOMIC_CAS` is `ATOMIC_VAR_CAS`.
* `held` is history: the pointers that a thread got from `cmpool_alloc` and has not
  given back.  A thread starts `cmpool_free` with one of these only.
-/
import Ssr.Interleaving

open Interleaving

namespace Cmpool

/-! ## Machine arithmetic -/

/-- Addition of words. -/
def add (a b : ℕ) : ℕ := (a + b) % 2 ^ 64

/-- Subtraction of words. -/
def sub (a b : ℕ) : ℕ := (a + (2 ^ 64 - b)) % 2 ^ 64

/-- Multiplication of words. -/
def mul (a b : ℕ) : ℕ := a * b % 2 ^ 64

/-- The conversion to `int`. -/
@[irreducible] def toInt (x : ℕ) : ℤ := Int.bmod x (2 ^ 32)

/-! ## The pool -/

/-- `NST_EMPTY` and `NST_USED`. -/
inductive NodeState where
  | empty
  | used
  deriving DecidableEq, Repr

/-- `cmpool_head_s` with its index table, spread over `offset` and `state`. -/
structure Head where
  magic : ℤ
  blksz : ℕ
  latestidx : ℤ
  blockbase : ℕ
  blknum : ℕ
  offset : ℤ → ℕ
  state : ℤ → NodeState

/-- `sizeof(cmpool_head_s)`. -/
def headSize : ℕ := 40

/-- `sizeof(cmpool_node_s)`. -/
def nodeSize : ℕ := 16

/-- `CMPOOL_MAGIC`. -/
def cmpoolMagic : ℤ := 109 * 2 ^ 24 + 112 * 2 ^ 16 + 108 * 2 ^ 8

/-- `cmpool_init`; `head` is what the memory held before. -/
def cmpoolInit (head : Head) (msize blksz : ℕ) : Head :=
  if head.magic ≠ cmpoolMagic then
    let blknum := sub msize headSize / add blksz nodeSize
    let blockbase := add headSize (mul blknum nodeSize)
    { magic := cmpoolMagic
      blksz := blksz
      latestidx := 0
      blockbase := blockbase
      blknum := blknum
      offset := fun i => add blockbase (mul i.toNat blksz)
      state := fun _ => .empty }
  else head

/-- `getbufaddr`; `NULL` is 0. -/
def getbufaddr (mbase : ℕ) (head : Head) (idx : ℤ) : ℕ :=
  if 0 ≤ idx ∧ idx < toInt head.blknum then add mbase (head.offset idx) else 0

/-- `getbufidx`: the division is one of `size_t`. -/
def getbufidx (mbase : ℕ) (head : Head) (ptr : ℕ) : ℤ :=
  toInt (sub (sub ptr mbase) head.blockbase / head.blksz)

/-! ## The threads -/

/-- The memory at `mbase`, and the history. -/
structure Pool where
  mbase : ℕ
  head : Head
  held : ℕ → List ℕ

/-- What a finished call returned. -/
inductive Ret where
  | none
  | alloc (ptr : ℕ)
  | free
  deriving DecidableEq, Repr

/-- Where a thread stands, with the locals that are live there. -/
inductive Pc where
  | returned (r : Ret)
  | allocLatest
  | allocHint (idx : ℤ)
  | allocScan (idx : ℤ)
  | allocStore (idx : ℤ)
  | freeCas (idx : ℤ)
  deriving DecidableEq, Repr

/-- The input of a step: the start of a call, or the next step of the running one.  The
size asked for is not looked at. -/
inductive Cmd where
  | alloc
  | free (ptr : ℕ)
  | resume
  deriving DecidableEq, Repr

/-- Store into `index[idx].state`. -/
def Pool.setState (s : Pool) (idx : ℤ) (state : NodeState) : Pool :=
  { s with head := { s.head with state := Function.update s.head.state idx state } }

/-- Store into `latestidx`. -/
def Pool.setLatest (s : Pool) (idx : ℤ) : Pool :=
  { s with head := { s.head with latestidx := idx } }

/-- Thread `t` has got the pointer `ptr`. -/
def Pool.take (s : Pool) (t ptr : ℕ) : Pool :=
  if ptr = 0 then s else { s with held := Function.update s.held t (ptr :: s.held t) }

/-- Thread `t` has given the pointer `ptr` away. -/
def Pool.give (s : Pool) (t ptr : ℕ) : Pool :=
  { s with held := Function.update s.held t ((s.held t).erase ptr) }

/-- The loop of `regbufidx` from `idx` on; behind its end `cmpool_alloc` returns what
`getbufaddr` makes of -1. -/
def scanFrom (s : Pool) (idx : ℤ) : Pc :=
  if idx < toInt s.head.blknum then .allocScan idx
  else .returned (.alloc (getbufaddr s.mbase s.head (-1)))

/-- One atomic step of thread `t` in `cmpool_alloc` or `cmpool_free`. -/
def step (t : ℕ) (s : Pool) : Pc → Cmd → Option (Pool × Pc)
  | .returned _, .alloc => some (s, .allocLatest)
  | .returned _, .free ptr =>
    if ptr ∈ s.held t then some (s.give t ptr, .freeCas (getbufidx s.mbase s.head ptr)) else none
  -- regbufidx
  | .allocLatest, .resume =>
    let idx := s.head.latestidx + 1
    if idx < toInt s.head.blknum then some (s, .allocHint idx) else some (s, scanFrom s 0)
  | .allocHint idx, .resume =>
    if s.head.state idx = .empty then some (s.setState idx .used, .allocStore idx)
    else some (s, scanFrom s 0)
  | .allocScan idx, .resume =>
    if s.head.state idx = .empty then some (s.setState idx .used, .allocStore idx)
    else some (s, scanFrom s (idx + 1))
  | .allocStore idx, .resume =>
    let ptr := getbufaddr s.mbase s.head idx
    some ((s.setLatest idx).take t ptr, .returned (.alloc ptr))
  -- unregbufidx
  | .freeCas idx, .resume =>
    if 0 ≤ idx ∧ idx < toInt s.head.blknum then
      if s.head.state idx = .used then some (s.setState idx .empty, .returned .free)
      else some (s, .returned .free)
    else some (s, .returned .free)
  | _, _ => none

/-- A pool just initialised, no thread inside a call. -/
def init (mbase : ℕ) (old : Head) (msize blksz : ℕ) : Conf Pool Pc where
  shared := { mbase := mbase, head := cmpoolInit old msize blksz, held := fun _ => [] }
  thread := fun _ => .returned .none

/-- The interleaved system. -/
abbrev sys : Conf Pool Pc → ℕ × Cmd → Option (Conf Pool Pc) := interleave step

/-! ## What the pool is for -/

/-- The indices of the blocks. -/
def InRange (head : Head) (i : ℤ) : Prop := 0 ≤ i ∧ i < head.blknum

/-- The sizes that `cmpool_init` is meant for: room for the header, blocks of at least
one byte, indices that are `int`, memory that does not wrap around. -/
structure Sized (mbase msize blksz : ℕ) : Prop where
  header : headSize ≤ msize
  block : 1 ≤ blksz
  entry : blksz + nodeSize < 2 ^ 64
  indices : (msize - headSize) / (blksz + nodeSize) ≤ 2 ^ 31 - 1
  base : 0 < mbase
  fits : mbase + msize ≤ 2 ^ 64

/-- In the middle of allocating or freeing block `i`. -/
def Pc.Busy (pc : Pc) (i : ℤ) : Prop := pc = .allocStore i ∨ pc = .freeCas i

/-- No block is held twice, and the states tell which blocks are taken. -/
structure Owned (c : Conf Pool Pc) : Prop where
  exclusive : ∀ t u p, p ∈ c.shared.held t → p ∈ c.shared.held u → t = u
  once : ∀ t, (c.shared.held t).Nodup
  held_used : ∀ t p, p ∈ c.shared.held t → ∃ i, InRange c.shared.head i
    ∧ p = getbufaddr c.shared.mbase c.shared.head i ∧ c.shared.head.state i = .used
  rest_empty : ∀ i, InRange c.shared.head i →
    (∀ t, getbufaddr c.shared.mbase c.shared.head i ∉ c.shared.held t) →
    (∀ t, ¬ (c.thread t).Busy i) → c.shared.head.state i = .empty

end Cmpool
