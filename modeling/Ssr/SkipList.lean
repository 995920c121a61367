/-
# The lock-free skiplist (`src/map/skiplist.c`, integer keys)

`sl_lookup`, `sl_cas` and `sl_remove` with `random_levels`, `find_preds` and
`update_item`, as programs of atomic steps: every load, store, CAS, add and swap of
a shared word is one step.  What a thread does to a node that it has not linked yet
belongs to the step that allocates it.

* A node is an address; `next level` is a pointer with a mark bit.  Address `0` is
  the sentinel `sl->head`; `NULL` is `none`.  Memory is not reused.
* `nbd_rand` is an input: the step that draws takes `z`, the number of trailing
  zeros of the low word of the random number (`__builtin_ctz`).
* The locals of `find_preds` are `Find`; who called it, and what happens when it
  returns, is `Caller`.  A `preds` or `succs` array that a caller does not pass is
  carried along and not read.
* Above `num_levels` a node has no links: a load there reads `NULL`.
* `handed` is history: the nodes given to `rcu_defer_free`.
-/
import Ssr.List

open Interleaving Map
open LinkedList (Link)

namespace SkipList

/-! ## Nodes and operations -/

/-- `MAX_LEVELS`. -/
def maxLevels : ℕ := 24

/-- `node_t`. -/
structure Node where
  key : ℕ
  val : ℕ
  numLevels : ℕ
  next : ℕ → Link

/-- The nodes of one skiplist with its `high_water`, and the history. -/
structure Heap where
  node : ℕ → Node
  brk : ℕ
  highWater : ℕ
  handed : List ℕ

/-- The arguments of `sl_cas`. -/
structure Cas where
  key : ℕ
  expectation : ℕ
  new : ℕ
  deriving DecidableEq, Repr

/-- The calls. -/
inductive Op where
  | lookup (key : ℕ)
  | cas (args : Cas)
  | remove (key : ℕ)
  deriving DecidableEq, Repr

/-- `enum unlink`. -/
inductive Unlink where
  | force
  | assist
  | dont
  deriving DecidableEq, Repr

/-- On whose behalf `find_preds` runs: `sl_lookup`; `sl_cas` before the insertion,
when a link of the new node was lost, and when the new node was removed meanwhile;
`sl_remove` before the node is marked and after. -/
inductive Caller where
  | lookup (key : ℕ)
  | cas (args : Cas) (n : ℕ)
  | relink (key newItem n level : ℕ)
  | clean (key : ℕ)
  | remove (key n : ℕ)
  | unlinkRemoved (key item val : ℕ)
  deriving DecidableEq, Repr

namespace Caller

/-- The argument `key`. -/
def key : Caller → ℕ
  | lookup key => key
  | cas args _ => args.key
  | relink key _ _ _ => key
  | clean key => key
  | remove key _ => key
  | unlinkRemoved key _ _ => key

/-- The argument `n`: how many levels are recorded. -/
def n : Caller → ℕ
  | lookup _ => 0
  | cas _ n => n
  | relink _ _ n _ => n
  | clean _ => 0
  | remove _ n => n
  | unlinkRemoved _ _ _ => 0

/-- The argument `unlink`. -/
def unlink : Caller → Unlink
  | lookup _ => .dont
  | cas _ _ => .assist
  | relink _ _ _ _ => .assist
  | clean _ => .force
  | remove _ _ => .assist
  | unlinkRemoved _ _ _ => .force

end Caller

/-- The arrays `preds` and `succs`. -/
structure Path where
  preds : ℕ → ℕ
  succs : ℕ → Option ℕ

/-- The arrays before anything is recorded. -/
def Path.empty : Path := ⟨fun _ => 0, fun _ => none⟩

/-- `preds[level] = pred; succs[level] = item`. -/
def Path.record (p : Path) (level pred : ℕ) (item : Option ℕ) : Path :=
  ⟨Function.update p.preds level pred, Function.update p.succs level item⟩

/-- The locals of `find_preds`; `item` is what the search of the last level ended at. -/
structure Find where
  pred : ℕ
  item : Option ℕ
  d : ℤ
  level : ℕ
  path : Path

/-- The new node of a `sl_cas` and where it goes. -/
structure Insert where
  newItem : ℕ
  n : ℕ
  path : Path

/-- Where a thread stands, with the locals that are live there. -/
inductive Pc where
  | returned (val : ℕ)
  | findStart (c : Caller) (path : Path)
  | findPred (c : Caller) (f : Find)
  | findNext (c : Caller) (f : Find) (item : ℕ)
  | findUnlink (c : Caller) (f : Find) (item : ℕ) (next : Link)
  | findKey (c : Caller) (f : Find) (item : ℕ) (next : Link)
  | lookupVal (item : ℕ)
  | casRandom (args : Cas)
  | casHighWater (args : Cas) (levels : ℕ)
  | casRaise (args : Cas)
  | casVal (args : Cas) (item : ℕ)
  | casUpdate (args : Cas) (item old : ℕ)
  | casAlloc (args : Cas) (n : ℕ) (path : Path)
  | casBottom (args : Cas) (ins : Insert)
  | casLink (key : ℕ) (ins : Insert) (level : ℕ)
  | casReload (key : ℕ) (ins : Insert) (level i : ℕ)
  | casStore (key : ℕ) (ins : Insert) (level i : ℕ) (old : Link)
  | casCheck (key : ℕ) (ins : Insert)
  | removeHighWater (key : ℕ)
  | removeLevels (key item : ℕ)
  | removeNext (key item level : ℕ)
  | removeMark (key item level : ℕ) (next : Link)
  | removeSwap (key item : ℕ)
  | removeDefer (item val : ℕ)

/-- The input of a step: the start of a call, a draw of `nbd_rand`, or the next
step of the running call. -/
inductive Cmd where
  | call (op : Op)
  | rand (z : ℕ)
  | resume
  deriving DecidableEq, Repr

/-! ## The steps -/

namespace Heap

/-- The load of `a->next[level]`. -/
def next (h : Heap) (a level : ℕ) : Link := (h.node a).next level

/-- Store into `a->next[level]`. -/
def setNext (h : Heap) (a level : ℕ) (l : Link) : Heap :=
  { h with
    node := Function.update h.node a
      { h.node a with next := Function.update (h.node a).next level l } }

/-- Store into the `val` field of node `a`. -/
def setVal (h : Heap) (a v : ℕ) : Heap :=
  { h with node := Function.update h.node a { h.node a with val := v } }

/-- `node_alloc` with the `next` fields that `sl_cas` stores. -/
def alloc (h : Heap) (args : Cas) (n : ℕ) (succs : ℕ → Option ℕ) : Heap :=
  { h with
    node := Function.update h.node h.brk
      ⟨args.key, args.new, n, fun level => ⟨if level < n then succs level else none, false⟩⟩
    brk := h.brk + 1 }

end Heap

/-- The arguments of a first call of `find_preds`. -/
def search (c : Caller) : Pc := .findStart c Path.empty

/-- `sl_cas` goes on to link the new node at `level`, or looks at it once more. -/
def linkLevel (key : ℕ) (ins : Insert) (level : ℕ) : Pc :=
  if level < ins.n then .casLink key ins level else .casCheck key ins

/-- The loop that corrects the links of the new node from level `i` on. -/
def reloadLevel (key : ℕ) (ins : Insert) (level i : ℕ) : Pc :=
  if i < ins.n then .casReload key ins level i else .casLink key ins level

/-- The loop of `sl_remove` that marks the levels below `level`. -/
def markLevel (key item : ℕ) : ℕ → Pc
  | 0 => .removeSwap key item
  | level + 1 => .removeNext key item level

/-- `find_preds` returned `item`: what the caller does first. -/
def resume (c : Caller) (path : Path) (item : Option ℕ) : Pc :=
  match c with
  | .lookup _ =>
    match item with
    | some i => .lookupVal i
    | none => .returned doesNotExist
  | .cas args n =>
    match item with
    | some i => .casVal args i
    | none =>
      if args.expectation ≠ expectDoesNotExist ∧ args.expectation ≠ expectWhatever then
        .returned doesNotExist
      else .casAlloc args n path
  | .relink key newItem n level => reloadLevel key ⟨newItem, n, path⟩ level level
  | .clean _ => .returned doesNotExist
  | .remove key _ =>
    match item with
    | some i => .removeLevels key i
    | none => .returned doesNotExist
  | .unlinkRemoved _ item val => .removeDefer item val

/-- The loop of `find_preds` over the levels below `level`. -/
def descend (c : Caller) (f : Find) : ℕ → Pc
  | 0 => resume c f.path (if f.d = 0 then f.item else none)
  | level + 1 => .findPred c { f with level := level }

/-- The search of a level ended at `item`. -/
def levelDone (c : Caller) (f : Find) (item : Option ℕ) : Pc :=
  descend c { f with
    item := item
    path := if f.level < c.n then f.path.record f.level f.pred item else f.path } f.level

/-- The head of the loop `while (item != NULL)`. -/
def visit (c : Caller) (f : Find) (item : Option ℕ) : Pc :=
  match item with
  | some i => .findNext c f i
  | none => levelDone c f none

/-- `next = item->next[level]`: a marked item is skipped or unlinked, an unmarked
one is compared. -/
def examine (c : Caller) (f : Find) (item : ℕ) (next : Link) : Pc :=
  if next.mark then
    if c.unlink = .dont then visit c f next.node else .findUnlink c f item next
  else .findKey c f item next

/-- One atomic step. -/
def step (h : Heap) : Pc → Cmd → Option (Heap × Pc)
  | .returned _, .call op =>
    match op with
    | .lookup key => some (h, search (.lookup key))
    | .cas args => some (h, .casRandom args)
    | .remove key => some (h, .removeHighWater key)
  -- find_preds
  | .findStart c path, .resume => some (h, descend c ⟨0, none, 0, 0, path⟩ h.highWater)
  | .findPred c f, .resume =>
    let next := h.next f.pred f.level
    if next = ⟨none, false⟩ ∧ c.n ≤ f.level then some (h, descend c f f.level)
    else if next.mark then some (h, .findStart c f.path)
    else some (h, visit c f next.node)
  | .findNext c f item, .resume => some (h, examine c f item (h.next item f.level))
  | .findUnlink c f item next, .resume =>
    let other := h.next f.pred f.level
    if other = ⟨some item, false⟩ then
      some (h.setNext f.pred f.level ⟨next.node, false⟩, visit c f next.node)
    else if other.mark then some (h, .findStart c f.path)
    else some (h, visit c f other.node)
  | .findKey c f item next, .resume =>
    let d := keyDiff (h.node item).key c.key
    if 0 < d ∨ d = 0 ∧ c.unlink ≠ .force then some (h, levelDone c { f with d := d } (some item))
    else some (h, visit c { f with d := d, pred := item } next.node)
  -- sl_lookup
  | .lookupVal item, .resume => some (h, .returned (h.node item).val)
  -- sl_cas: random_levels
  | .casRandom args, .rand z =>
    if z < 32 then
      let levels := 2 * z / 3
      if levels = 0 then some (h, search (.cas args 1)) else some (h, .casHighWater args levels)
    else none
  | .casHighWater args levels, .resume =>
    if h.highWater < levels then some (h, .casRaise args)
    else some (h, search (.cas args (min levels maxLevels)))
  | .casRaise args, .resume =>
    some ({ h with highWater := h.highWater + 1 },
      search (.cas args (min (h.highWater + 1) maxLevels)))
  -- sl_cas: update_item
  | .casVal args item, .resume =>
    let old := (h.node item).val
    if old = doesNotExist then some (h, .casRandom args)
    else if args.expectation = expectDoesNotExist then some (h, .returned old)
    else some (h, .casUpdate args item old)
  | .casUpdate args item old, .resume =>
    if (h.node item).val = old then some (h.setVal item args.new, .returned old)
    else some (h, .casVal args item)
  -- sl_cas: a new node
  | .casAlloc args n path, .resume =>
    some (h.alloc args n path.succs, .casBottom args ⟨h.brk, n, path⟩)
  | .casBottom args ins, .resume =>
    if h.next (ins.path.preds 0) 0 = ⟨ins.path.succs 0, false⟩ then
      some (h.setNext (ins.path.preds 0) 0 ⟨some ins.newItem, false⟩, linkLevel args.key ins 1)
    else some (h, .casRandom args)
  | .casLink key ins level, .resume =>
    if h.next (ins.path.preds level) level = ⟨ins.path.succs level, false⟩ then
      some (h.setNext (ins.path.preds level) level ⟨some ins.newItem, false⟩,
        linkLevel key ins (level + 1))
    else some (h, .findStart (.relink key ins.newItem ins.n level) ins.path)
  | .casReload key ins level i, .resume =>
    let old := h.next ins.newItem i
    if old = ⟨ins.path.succs i, false⟩ then some (h, reloadLevel key ins level (i + 1))
    else some (h, .casStore key ins level i old)
  | .casStore key ins level i old, .resume =>
    let other := h.next ins.newItem i
    let h' := if other = old then h.setNext ins.newItem i ⟨ins.path.succs i, false⟩ else h
    if other.mark then some (h', search (.clean key))
    else some (h', reloadLevel key ins level (i + 1))
  | .casCheck key ins, .resume =>
    if (h.next ins.newItem (ins.n - 1)).mark then some (h, search (.clean key))
    else some (h, .returned doesNotExist)
  -- sl_remove
  | .removeHighWater key, .resume => some (h, search (.remove key h.highWater))
  | .removeLevels key item, .resume => some (h, markLevel key item (h.node item).numLevels)
  | .removeNext key item level, .resume =>
    some (h, .removeMark key item level (h.next item level))
  | .removeMark key item level next, .resume =>
    let old := h.next item level
    let h' := if old = next then h.setNext item level ⟨next.node, true⟩ else h
    if old.mark then
      if level = 0 then some (h', .returned doesNotExist) else some (h', markLevel key item level)
    else if old = next then some (h', markLevel key item level)
    else some (h', .removeMark key item level old)
  | .removeSwap key item, .resume =>
    some (h.setVal item doesNotExist, search (.unlinkRemoved key item (h.node item).val))
  | .removeDefer item val, .resume =>
    some ({ h with handed := h.handed ++ [item] }, .returned val)
  | _, _ => none

/-- A thread that has returned waits for a call. -/
@[simp] theorem step_returned_resume (h : Heap) (v : ℕ) : step h (.returned v) .resume = none := by
  simp only [step]

/-- `sl_alloc`: the sentinel alone. -/
def init : Conf Heap Pc where
  shared :=
    { node := fun _ => ⟨0, 0, maxLevels, fun _ => ⟨none, false⟩⟩, brk := 1, highWater := 1,
      handed := [] }
  thread := fun _ => .returned doesNotExist

/-- The interleaved system. -/
abbrev sys : Conf Heap Pc → ℕ × Cmd → Option (Conf Heap Pc) :=
  interleave fun _ => step

/-! ## Loads after stores -/

namespace Heap

variable (h : Heap)

theorem next_setNext (a level : ℕ) (l : Link) (b m : ℕ) :
    (h.setNext a level l).next b m = if b = a ∧ m = level then l else h.next b m := by
  by_cases hb : b = a
  · subst hb
    by_cases hm : m = level
    · subst hm
      simp [next, setNext]
    · simp [next, setNext, hm]
  · simp [next, setNext, hb]

@[simp] theorem next_setVal (a v b m : ℕ) : (h.setVal a v).next b m = h.next b m := by
  by_cases hb : b = a
  · subst hb
    simp [next, setVal]
  · simp [next, setVal, hb]

@[simp] theorem val_setNext (a level : ℕ) (l : Link) (b : ℕ) :
    ((h.setNext a level l).node b).val = (h.node b).val := by
  by_cases hb : b = a
  · subst hb
    simp [setNext]
  · simp [setNext, hb]

theorem val_setVal (a v b : ℕ) :
    ((h.setVal a v).node b).val = if b = a then v else (h.node b).val := by
  by_cases hb : b = a
  · subst hb
    simp [setVal]
  · simp [setVal, hb]

@[simp] theorem key_setNext (a level : ℕ) (l : Link) (b : ℕ) :
    ((h.setNext a level l).node b).key = (h.node b).key := by
  by_cases hb : b = a
  · subst hb
    simp [setNext]
  · simp [setNext, hb]

@[simp] theorem key_setVal (a v b : ℕ) : ((h.setVal a v).node b).key = (h.node b).key := by
  by_cases hb : b = a
  · subst hb
    simp [setVal]
  · simp [setVal, hb]

@[simp] theorem numLevels_setNext (a level : ℕ) (l : Link) (b : ℕ) :
    ((h.setNext a level l).node b).numLevels = (h.node b).numLevels := by
  by_cases hb : b = a
  · subst hb
    simp [setNext]
  · simp [setNext, hb]

@[simp] theorem numLevels_setVal (a v b : ℕ) :
    ((h.setVal a v).node b).numLevels = (h.node b).numLevels := by
  by_cases hb : b = a
  · subst hb
    simp [setVal]
  · simp [setVal, hb]

@[simp] theorem brk_setNext (a level : ℕ) (l : Link) : (h.setNext a level l).brk = h.brk := rfl
@[simp] theorem brk_setVal (a v : ℕ) : (h.setVal a v).brk = h.brk := rfl
@[simp] theorem highWater_setNext (a level : ℕ) (l : Link) :
    (h.setNext a level l).highWater = h.highWater := rfl
@[simp] theorem highWater_setVal (a v : ℕ) : (h.setVal a v).highWater = h.highWater := rfl

theorem node_alloc_of_ne {args : Cas} {n : ℕ} {succs : ℕ → Option ℕ} {b : ℕ} (hb : b ≠ h.brk) :
    (h.alloc args n succs).node b = h.node b :=
  Function.update_of_ne hb ..

@[simp] theorem node_alloc_brk (args : Cas) (n : ℕ) (succs : ℕ → Option ℕ) :
    (h.alloc args n succs).node h.brk
      = ⟨args.key, args.new, n, fun level => ⟨if level < n then succs level else none, false⟩⟩ :=
  Function.update_self ..

end Heap

end SkipList
