/-
# The lock-free list (`src/map/list.c`, RCU build, integer keys)

`ll_cas`, `ll_lookup` and `ll_remove` with their search `find_pred`, as programs
of atomic steps: every load, store, CAS and swap of a field of a shared node is
one step.

* A node is an address; `next` is a pointer with a mark bit (`markable_t`).
  Address `0` is the sentinel `ll->head`; `NULL` is `none`.
* Memory is not reused: `brk` is the next fresh address.  A node that lost the
  race to be linked is dropped (`nbd_free`).
* A key comparison is the source's `int d = item->key - key`: the 64-bit
  difference truncated to a signed 32-bit integer.
* `owner`, `linked`, `unlinked` and `handed` are history: who allocated a node,
  which nodes a CAS put into the list, which thread's CAS took which node out,
  and which thread gave which node to `rcu_defer_free`.  No step reads them.
-/
import Ssr.Interleaving
import Ssr.Chain
import Ssr.Map

open Interleaving Map

namespace LinkedList

/-! ## Nodes and operations -/

/-- `markable_t`: a pointer and its mark. -/
structure Link where
  node : Option ℕ
  mark : Bool
  deriving DecidableEq, Repr

/-- `node_t`. -/
structure Node where
  key : ℕ
  val : ℕ
  next : Link
  deriving DecidableEq, Repr

/-- The nodes of one list, with the history. -/
structure Heap where
  node : ℕ → Node
  brk : ℕ
  owner : ℕ → ℕ
  linked : List ℕ
  unlinked : List (ℕ × ℕ)
  handed : List (ℕ × ℕ)

/-- The calls. -/
inductive Op where
  | lookup (key : ℕ)
  | cas (key expectation new : ℕ)
  | remove (key : ℕ)
  deriving DecidableEq, Repr

/-- The key that `find_pred` looks for. -/
def Op.key : Op → ℕ
  | .lookup key => key
  | .cas key _ _ => key
  | .remove key => key

/-- `help_remove`: only `ll_lookup` passes `FALSE`. -/
def Op.helps : Op → Bool
  | .lookup _ => false
  | _ => true

/-- Where a thread stands, with the locals that are live there.  The first group
is `find_pred`, on behalf of `op`. -/
inductive Pc where
  | returned (val : ℕ)
  | findHead (op : Op)
  | findNext (op : Op) (pred item : ℕ)
  | findKey (op : Op) (pred item : ℕ) (next : Link)
  | findSkip (op : Op) (pred item : ℕ)
  | findUnlink (op : Op) (pred item : ℕ) (next : Link)
  | findReload (op : Op) (pred : ℕ) (item : Option ℕ) (old : ℕ)
  | findDefer (op : Op) (pred : ℕ) (item : Option ℕ) (next : Link) (old : ℕ)
  | lookupVal (item : ℕ)
  | casAlloc (op : Op) (new pred : ℕ) (item : Option ℕ)
  | casLink (op : Op) (pred : ℕ) (next : Option ℕ) (newItem : ℕ)
  | casVal (op : Op) (expectation new item : ℕ)
  | casUpdate (op : Op) (expectation new item old : ℕ)
  | removeNext (pred item : ℕ)
  | removeMark (pred item : ℕ) (next : Link)
  | removeSwap (pred item : ℕ) (next : Link)
  | removeUnlink (pred item : ℕ) (next : Link) (val : ℕ)
  | removeDefer (item val : ℕ)
  deriving DecidableEq, Repr

/-- The input of a step: the start of a call, or the next step of the running one. -/
inductive Cmd where
  | call (op : Op)
  | resume
  deriving DecidableEq, Repr

/-! ## The steps -/

namespace Heap

/-- Store into the `next` field of node `a`. -/
def setNext (h : Heap) (a : ℕ) (l : Link) : Heap :=
  { h with node := Function.update h.node a { h.node a with next := l } }

/-- Store into the `val` field of node `a`. -/
def setVal (h : Heap) (a v : ℕ) : Heap :=
  { h with node := Function.update h.node a { h.node a with val := v } }

/-- `node_alloc` by thread `t`, with the `next` field that its caller stores. -/
def alloc (h : Heap) (t : ℕ) (n : Node) : Heap :=
  { h with
    node := Function.update h.node h.brk n
    owner := Function.update h.owner h.brk t
    brk := h.brk + 1 }

/-- The CAS of thread `t` that links node `n` behind `p`. -/
def link (h : Heap) (p n : ℕ) : Heap :=
  { h.setNext p ⟨some n, false⟩ with linked := h.linked ++ [n] }

/-- The CAS of thread `t` that links `p` past node `i`. -/
def unlink (h : Heap) (t p i : ℕ) (l : Option ℕ) : Heap :=
  { h.setNext p ⟨l, false⟩ with unlinked := h.unlinked ++ [(i, t)] }

/-- `rcu_defer_free` of node `i` by thread `t`. -/
def hand (h : Heap) (t i : ℕ) : Heap :=
  { h with handed := h.handed ++ [(i, t)] }

end Heap

/-- `find_pred` returned: what the caller does first. -/
def found (op : Op) (pred item : ℕ) : Pc :=
  match op with
  | .lookup _ => .lookupVal item
  | .cas _ expectation new => .casVal op expectation new item
  | .remove _ => .removeNext pred item

/-- `find_pred` did not find the key; `item` is the first node behind its place. -/
def notFound (op : Op) (pred : ℕ) (item : Option ℕ) : Pc :=
  match op with
  | .lookup _ => .returned doesNotExist
  | .cas _ expectation new =>
    if expectation ≠ expectDoesNotExist ∧ expectation ≠ expectWhatever then
      .returned doesNotExist
    else .casAlloc op new pred item
  | .remove _ => .returned doesNotExist

/-- The head of the loop `while (item != NULL)`. -/
def visit (op : Op) (pred : ℕ) (item : Option ℕ) : Pc :=
  match item with
  | some i => .findNext op pred i
  | none => notFound op pred none

/-- After `next = item->next`: a marked item is unlinked or skipped, an unmarked one
is compared. -/
def examine (op : Op) (pred item : ℕ) (next : Link) : Pc :=
  if next.mark then
    if op.helps then .findUnlink op pred item next else .findSkip op pred item
  else .findKey op pred item next

/-- One atomic step of thread `t`. -/
def step (t : ℕ) (h : Heap) : Pc → Cmd → Option (Heap × Pc)
  | .returned _, .call op => some (h, .findHead op)
  -- find_pred
  | .findHead op, .resume => some (h, visit op 0 (h.node 0).next.node)
  | .findNext op pred item, .resume => some (h, examine op pred item (h.node item).next)
  | .findSkip op pred item, .resume => some (h, visit op pred (h.node item).next.node)
  | .findKey op pred item next, .resume =>
    let d := keyDiff (h.node item).key op.key
    if 0 ≤ d then
      if d = 0 then some (h, found op pred item) else some (h, notFound op pred (some item))
    else some (h, visit op item next.node)
  | .findUnlink op pred item next, .resume =>
    let other := (h.node pred).next
    if other = ⟨some item, false⟩ then
      some (h.unlink t pred item next.node, .findReload op pred next.node item)
    else if other.mark then some (h, .findHead op)
    else some (h, visit op pred other.node)
  | .findReload op pred item old, .resume =>
    match item with
    | some i => some (h, .findDefer op pred item (h.node i).next old)
    | none => some (h, .findDefer op pred none ⟨none, false⟩ old)
  | .findDefer op pred item next old, .resume =>
    match item with
    | some i => some (h.hand t old, examine op pred i next)
    | none => some (h.hand t old, notFound op pred none)
  -- ll_lookup
  | .lookupVal item, .resume => some (h, .returned (h.node item).val)
  -- ll_cas
  | .casAlloc op new pred item, .resume =>
    some (h.alloc t ⟨op.key, new, ⟨item, false⟩⟩, .casLink op pred item h.brk)
  | .casLink op pred next newItem, .resume =>
    if (h.node pred).next = ⟨next, false⟩ then
      some (h.link pred newItem, .returned doesNotExist)
    else some (h, .findHead op)
  | .casVal op expectation new item, .resume =>
    some (h, .casUpdate op expectation new item (h.node item).val)
  | .casUpdate op expectation new item old, .resume =>
    if old = doesNotExist then some (h, .findHead op)
    else if expectation = expectDoesNotExist then some (h, .returned old)
    else if (h.node item).val = old then some (h.setVal item new, .returned old)
    else some (h, .casUpdate op expectation new item (h.node item).val)
  -- ll_remove
  | .removeNext pred item, .resume => some (h, .removeMark pred item (h.node item).next)
  | .removeMark pred item next, .resume =>
    let old := (h.node item).next
    if old = next then
      if old.mark then some (h.setNext item ⟨next.node, true⟩, .returned doesNotExist)
      else some (h.setNext item ⟨next.node, true⟩, .removeSwap pred item next)
    else if old.mark then some (h, .returned doesNotExist)
    else some (h, .removeMark pred item old)
  | .removeSwap pred item next, .resume =>
    some (h.setVal item doesNotExist, .removeUnlink pred item next (h.node item).val)
  | .removeUnlink pred item next val, .resume =>
    if (h.node pred).next = ⟨some item, false⟩ then
      some (h.unlink t pred item next.node, .removeDefer item val)
    else some (h, .returned val)
  | .removeDefer item val, .resume => some (h.hand t item, .returned val)
  | _, _ => none

/-- A call that has returned takes no further step. -/
theorem step_returned (t : ℕ) (h : Heap) (val : ℕ) : step t h (.returned val) .resume = none := by
  simp only [step]

/-- `ll_alloc`: the sentinel alone.  Memory that was not allocated yet is filled in
by `node_alloc` before it is used; it stands here with `NULL` links. -/
def init : Conf Heap Pc where
  shared :=
    { node := fun _ => ⟨0, 0, ⟨none, false⟩⟩, brk := 1, owner := fun _ => 0,
      linked := [], unlinked := [], handed := [] }
  thread := fun _ => .returned doesNotExist

/-- The interleaved system. -/
abbrev sys : Conf Heap Pc → ℕ × Cmd → Option (Conf Heap Pc) :=
  interleave step

/-- A call on a key for which `keyDiff` is the difference of the keys. -/
def SmallKey (e : ℕ × Cmd) : Prop :=
  match e.2 with
  | .call op => op.key < 2 ^ 31
  | .resume => True

/-! ## What the list is for -/

/-- The successor of a node, mark stripped. -/
def Heap.succ (h : Heap) (a : ℕ) : Option ℕ := (h.node a).next.node

/-- `a` is reached from `ll->head`. -/
def Heap.Reachable (h : Heap) (a : ℕ) : Prop := Chain.Reach h.succ 0 a

/-- The structure of the list and the reclamation of its nodes, in one state. -/
structure Heap.WellFormed (h : Heap) : Prop where
  sorted : ∀ a b, h.Reachable a → h.succ a = some b → a ≠ 0 → (h.node a).key < (h.node b).key
  unique : ∀ a b, h.Reachable a → h.Reachable b → a ≠ 0 → b ≠ 0 →
    (h.node a).key = (h.node b).key → a = b
  marked : ∀ a ∈ h.linked, ¬ h.Reachable a → (h.node a).next.mark = true
  unlinked_once : ∀ a ∈ h.linked, ¬ h.Reachable a →
    (h.unlinked.filter fun u => u.1 = a).length = 1
  handed_by : ∀ a t, (a, t) ∈ h.handed → (a, t) ∈ h.unlinked
  handed_once : (h.handed.map Prod.fst).Nodup
  handed_unreachable : ∀ a t, (a, t) ∈ h.handed → ¬ h.Reachable a

end LinkedList
