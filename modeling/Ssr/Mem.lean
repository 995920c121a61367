/-
# The memory allocator (`src/runtime/mem.c`, without `RECYCLE_PAGES`)

`nbd_malloc` and `nbd_free` as programs of atomic steps: every load and store of memory is
one step.

* A block is an address; `next a` is the word at address `a`, which is the field `next` of
  a block that starts there.  A client may write any word of a block that it holds.
* The header of a page has the owner and the scale of the page.  The stores into the header
  of a new page are one step, and so are the stores that break up a new page, with the one
  that puts the blocks on the free list: no other thread can look there.
* `tl->blocks_to[j]` is the address of a word: the cell `tl_[j].blocks_from[i]`, until a
  block was put on the queue, and the last block that was put there from then on.
* `mmap` is an input: the region that it returns overlaps no region that is in use.  What
  `munmap` gives back is not in use.
* `__builtin_clzl(0)` is undefined: no request is for 1 byte.
* `blocks` and `asked` are history: where every block is, and the request that it was last
  given out for.  `regions` and `carved` are the regions in use, and those that were broken
  up into blocks.
-/
import Ssr.Interleaving
import Ssr.Chain
import Ssr.Placement
import Mathlib.Data.Nat.Size

open Interleaving Placement Chain

namespace Mem

/-! ## Blocks and pages -/

/-- `MAX_NUM_THREADS`. -/
def maxNumThreads : ℕ := 32

/-- `MAX_SCALE`. -/
def maxScale : ℕ := 36

/-- `MIN_SCALE`. -/
def minScale : ℕ := 3

/-- `PAGE_SCALE`. -/
def pageScale : ℕ := 21

/-- `PAGE_SIZE`. -/
def pageSize : ℕ := 2 ^ pageScale

/-- The number of the page that an address is on, as `get_header` computes it. -/
def page (a : ℕ) : ℕ := a / pageSize

/-- `b_scale` for a request of `n` bytes: the length of `n - 1` in bits, as a `size_t`. -/
def blockScale (n : ℕ) : ℕ := max minScale (Nat.size ((n + (2 ^ 64 - 1)) % 2 ^ 64))

/-- `region_size`. -/
def regionSize (scale : ℕ) : ℕ := max (2 ^ scale) pageSize

/-- `header_t`. -/
structure Header where
  owner : ℕ
  scale : ℕ
  deriving DecidableEq, Repr

/-- A region that `get_new_region` returned. -/
structure Region where
  base : ℕ
  scale : ℕ
  owner : ℕ
  deriving DecidableEq, Repr

/-- The blocks of a region. -/
def Region.blocks (r : Region) : List ℕ :=
  if r.scale < pageScale then
    (List.range (2 ^ (pageScale - r.scale))).map fun i => r.base + i * 2 ^ r.scale
  else [r.base]

/-- Where `tl->blocks_to[j]` points to. -/
inductive Tail where
  | cell
  | block (b : ℕ)
  deriving DecidableEq, Repr

/-- Where a block is: with a client; in a call of `nbd_free` of thread `t`; on the free list
of thread `o` at a scale; on the queue `tl_[o].blocks_from[p]`. -/
inductive Place where
  | held
  | freeing (t : ℕ)
  | free (o scale : ℕ)
  | queue (o p : ℕ)
  deriving DecidableEq, Repr

/-- The memory: `tl_`, `headers_`, the words of the blocks, and the history. -/
structure Heap where
  next : ℕ → Option ℕ
  header : ℕ → Header
  freeList : ℕ → ℕ → Option ℕ
  blocksFrom : ℕ → ℕ → Option ℕ
  blocksTo : ℕ → ℕ → Tail
  regions : List Region
  carved : List Region
  blocks : Place → List ℕ
  asked : ℕ → ℕ

/-- Where a thread stands, with the locals that are live there; `n` is the request of
`nbd_malloc`. -/
inductive Pc where
  | returned (b : Option ℕ)
  | freeScale (x : ℕ)
  | freeTrap (x scale : ℕ)
  | freeOwner (x scale : ℕ)
  | freeHead (x scale : ℕ)
  | freeNext (x scale : ℕ) (old : Option ℕ)
  | freePush (x scale : ℕ)
  | freeOther (x : ℕ)
  | freeNull (x owner : ℕ)
  | freeTail (x owner : ℕ)
  | freeLink (x owner : ℕ) (tail : Tail)
  | freeTo (x owner : ℕ)
  | popHead (n : ℕ) (again : Bool)
  | popNext (n b : ℕ)
  | popStore (n b : ℕ) (next : Option ℕ)
  | inHead (n p : ℕ)
  | inNext (n p b : ℕ)
  | inScale (n p b c : ℕ)
  | inLoad (n p b c scale : ℕ)
  | inStore (n p b c scale : ℕ) (old : Option ℕ)
  | inPush (n p b c scale : ℕ)
  | inDone (n p b : ℕ)
  | mmap (n : ℕ)
  | remap (n : ℕ)
  | header (n base : ℕ)
  | carve (n base : ℕ)
  deriving DecidableEq, Repr

/-- The input of a step: a call; a store of a client into word `a` of its block `x`; the
answer of `mmap`; or the next step of the running call. -/
inductive Cmd where
  | malloc (n : ℕ)
  | free (x : ℕ)
  | write (x a : ℕ) (v : Option ℕ)
  | region (base : ℕ)
  | resume
  deriving DecidableEq, Repr

/-! ## The steps -/

namespace Heap

/-- Store into the word at address `a`. -/
def setNext (h : Heap) (a : ℕ) (v : Option ℕ) : Heap := { h with next := Function.update h.next a v }

/-- `memset(x, 0xcd, 1 << scale)`. -/
def trap (h : Heap) (x scale : ℕ) : Heap :=
  { h with next := fun a => if x ≤ a ∧ a < x + 2 ^ scale then some 0xcdcdcdcdcdcdcdcd else h.next a }

/-- `tl_[t].free_list[scale] = v`. -/
def setFree (h : Heap) (t scale : ℕ) (v : Option ℕ) : Heap :=
  { h with freeList := Function.update h.freeList t (Function.update (h.freeList t) scale v) }

/-- `tl_[o].blocks_from[p] = v`. -/
def setFrom (h : Heap) (o p : ℕ) (v : Option ℕ) : Heap :=
  { h with blocksFrom := Function.update h.blocksFrom o (Function.update (h.blocksFrom o) p v) }

/-- `tl_[t].blocks_to[o] = b`. -/
def setTo (h : Heap) (t o b : ℕ) : Heap :=
  { h with blocksTo := Function.update h.blocksTo t (Function.update (h.blocksTo t) o (.block b)) }

/-- `tail->next = b`, on the queue from thread `t` to thread `o`. -/
def link (h : Heap) (o t : ℕ) (tail : Tail) (b : ℕ) : Heap :=
  match tail with
  | .cell => h.setFrom o t (some b)
  | .block y => h.setNext y (some b)

/-- Block `x` goes from place `p` to the front of place `q`. -/
def toFront (h : Heap) (p q : Place) (x : ℕ) : Heap :=
  { h with blocks := moveFront h.blocks p q x }

/-- Block `x` goes from place `p` to the back of place `q`. -/
def toBack (h : Heap) (p q : Place) (x : ℕ) : Heap :=
  { h with blocks := moveBack h.blocks p q x }

/-- Block `x` is given out for a request of `n` bytes. -/
def ask (h : Heap) (x n : ℕ) : Heap := { h with asked := Function.update h.asked x n }

/-- A region of `size` bytes at `base` overlaps no region in use. -/
def Fresh (h : Heap) (base size : ℕ) : Prop :=
  0 < base ∧ ∀ r ∈ h.regions, base + size ≤ r.base ∨ r.base + regionSize r.scale ≤ base

instance (h : Heap) (base size : ℕ) : Decidable (h.Fresh base size) :=
  inferInstanceAs (Decidable (_ ∧ _))

/-- The region `r` is in use. -/
def claim (h : Heap) (r : Region) : Heap := { h with regions := r :: h.regions }

/-- The stores into the header of a new page. -/
def setHeader (h : Heap) (r : Region) : Heap :=
  { h with header := Function.update h.header (page r.base) ⟨r.owner, r.scale⟩ }

/-- Break up the region `r`: all blocks but the first go to the free list of its owner, in
increasing order, and the first is given out. -/
def carve (h : Heap) (r : Region) : Heap :=
  { h with
    next := fun a => if a ∈ r.blocks.tail then
        (if a + 2 ^ r.scale < r.base + pageSize then some (a + 2 ^ r.scale) else none)
      else h.next a
    freeList := if r.scale < pageScale then
        Function.update h.freeList r.owner
          (Function.update (h.freeList r.owner) r.scale (some (r.base + 2 ^ r.scale)))
      else h.freeList
    carved := r :: h.carved
    blocks := Function.update (Function.update h.blocks (.free r.owner r.scale)
        (r.blocks.tail ++ h.blocks (.free r.owner r.scale)))
      .held (r.base :: h.blocks .held) }

end Heap

/-- The head of the loop of `process_incoming_blocks`. -/
def incoming (n p : ℕ) : Pc := if p < maxNumThreads then .inHead n p else .popHead n true

/-- One atomic step of thread `t`. -/
def step (t : ℕ) (h : Heap) : Pc → Cmd → Option (Heap × Pc)
  | .returned _, .malloc n =>
    if t < maxNumThreads ∧ n < 2 ^ 64 ∧ n ≠ 1 then
      if maxScale < blockScale n then some (h, .returned none) else some (h, .popHead n false)
    else none
  | .returned r, .write x a v =>
    if x ∈ h.blocks .held ∧ x ≤ a ∧ a < x + 2 ^ (h.header (page x)).scale then
      some (h.setNext a v, .returned r)
    else none
  -- nbd_free
  | .returned _, .free x =>
    if t < maxNumThreads ∧ x ∈ h.blocks .held then
      some (h.toFront .held (.freeing t) x, .freeScale x)
    else none
  | .freeScale x, .resume => some (h, .freeTrap x (h.header (page x)).scale)
  | .freeTrap x scale, .resume => some (h.trap x scale, .freeOwner x scale)
  | .freeOwner x scale, .resume =>
    if (h.header (page x)).owner = t then some (h, .freeHead x scale) else some (h, .freeOther x)
  | .freeHead x scale, .resume => some (h, .freeNext x scale (h.freeList t scale))
  | .freeNext x scale old, .resume => some (h.setNext x old, .freePush x scale)
  | .freePush x scale, .resume =>
    some ((h.setFree t scale (some x)).toFront (.freeing t) (.free t scale) x, .returned none)
  | .freeOther x, .resume => some (h, .freeNull x (h.header (page x)).owner)
  | .freeNull x owner, .resume => some (h.setNext x none, .freeTail x owner)
  | .freeTail x owner, .resume => some (h, .freeLink x owner (h.blocksTo t owner))
  | .freeLink x owner tail, .resume =>
    some ((h.link owner t tail x).toBack (.freeing t) (.queue owner t) x, .freeTo x owner)
  | .freeTo x owner, .resume => some (h.setTo t owner x, .returned none)
  -- nbd_malloc: pop_free_list
  | .popHead n again, .resume =>
    match h.freeList t (blockScale n) with
    | some b => some (h, .popNext n b)
    | none => if again then some (h, .mmap n) else some (h, incoming n 0)
  | .popNext n b, .resume => some (h, .popStore n b (h.next b))
  | .popStore n b next, .resume =>
    some (((h.setFree t (blockScale n) next).toFront (.free t (blockScale n)) .held b).ask b n,
      .returned (some b))
  -- nbd_malloc: process_incoming_blocks
  | .inHead n p, .resume =>
    match h.blocksFrom t p with
    | none => some (h, incoming n (p + 1))
    | some b => some (h, .inNext n p b)
  | .inNext n p b, .resume =>
    match h.next b with
    | none => some (h, .inDone n p b)
    | some c => some (h, .inScale n p b c)
  | .inScale n p b c, .resume => some (h, .inLoad n p b c (h.header (page b)).scale)
  | .inLoad n p b c scale, .resume => some (h, .inStore n p b c scale (h.freeList t scale))
  | .inStore n p b c scale old, .resume => some (h.setNext b old, .inPush n p b c scale)
  | .inPush n p b c scale, .resume =>
    some ((h.setFree t scale (some b)).toFront (.queue t p) (.free t scale) b, .inNext n p c)
  | .inDone n p b, .resume => some (h.setFrom t p (some b), incoming n (p + 1))
  -- nbd_malloc: get_new_region
  | .mmap n, .region base =>
    let size := regionSize (blockScale n)
    if h.Fresh base size then
      if base % size = 0 then some (h.claim ⟨base, blockScale n, t⟩, .header n base)
      else some (h, .remap n)
    else none
  | .remap n, .region base =>
    let size := regionSize (blockScale n)
    let aligned := (base + size) / size * size
    if h.Fresh base (2 * size) then
      some (h.claim ⟨aligned, blockScale n, t⟩, .header n aligned)
    else none
  | .header n base, .resume => some (h.setHeader ⟨base, blockScale n, t⟩, .carve n base)
  | .carve n base, .resume =>
    some ((h.carve ⟨base, blockScale n, t⟩).ask base n, .returned (some base))
  | _, _ => none

/-- A thread that has returned waits for a call. -/
@[simp] theorem step_returned_resume (t : ℕ) (h : Heap) (b : Option ℕ) :
    step t h (.returned b) .resume = none := by
  simp only [step]

/-- The system of all threads. -/
def sys (c : Conf Heap Pc) (e : ℕ × Cmd) : Option (Conf Heap Pc) := interleave step c e

/-- The memory after `mem_init`. -/
def init : Conf Heap Pc where
  shared :=
    { next := fun _ => none
      header := fun _ => ⟨0, 0⟩
      freeList := fun _ _ => none
      blocksFrom := fun _ _ => none
      blocksTo := fun _ _ => .cell
      regions := []
      carved := []
      blocks := fun _ => []
      asked := fun _ => 0 }
  thread := fun _ => .returned none

/-! ## Where a block is -/

/-- The block that a call of `nbd_free` has not put anywhere yet. -/
def Pc.frees : Pc → Option ℕ
  | .freeScale x | .freeTrap x _ | .freeOwner x _ | .freeHead x _ | .freeNext x _ _
  | .freePush x _ | .freeOther x | .freeNull x _ | .freeTail x _ | .freeLink x _ _ => some x
  | _ => none

/-- The queue that `process_incoming_blocks` is at, and the block that is first there. -/
def Pc.cursor : Pc → Option (ℕ × ℕ)
  | .inNext _ p b | .inScale _ p b _ | .inLoad _ p b _ _ | .inStore _ p b _ _ _
  | .inPush _ p b _ _ | .inDone _ p b => some (p, b)
  | _ => none

/-- The queue whose first block has its new link already, with the block behind it. -/
def Pc.unhooked : Pc → Option (ℕ × ℕ)
  | .inPush _ p _ c _ => some (p, c)
  | _ => none

/-- The blocks on the queue from `p` to thread `o`.  While `o` processes the queue it begins
at the block that is looked at; and when that block has its new link, behind it. -/
def OnQueue (c : Conf Heap Pc) (o p x : ℕ) : Prop :=
  match (c.thread o).cursor with
  | some (q, b) =>
    if q = p then
      match (c.thread o).unhooked with
      | some (_, b') => x = b ∨ Reach c.shared.next b' x
      | none => Reach c.shared.next b x
    else ∃ b, c.shared.blocksFrom o p = some b ∧ Reach c.shared.next b x
  | none => ∃ b, c.shared.blocksFrom o p = some b ∧ Reach c.shared.next b x

/-- A block is at a place. -/
def At (c : Conf Heap Pc) : Place → ℕ → Prop
  | .held, x => x ∈ c.shared.blocks .held
  | .freeing t, x => (c.thread t).frees = some x
  | .free o scale, x => ∃ b, c.shared.freeList o scale = some b ∧ Reach c.shared.next b x
  | .queue o p, x => OnQueue c o p x

end Mem
