/-
# Iterators over the hash table (`src/map/hashtable.c`)

`ht_cas` and `ht_remove` with the reference counts of the tables, and `ht_iter_begin`,
`ht_iter_next` and `ht_iter_free`, for one thread.

* The chain of tables and everything that does not touch a reference count is that of
  `Ssr.HashtableCalls`.
* `hti_alloc` sets `ref_count` to 1, so that the tables to come have that count.
* `freed` is history: the tables passed to `hti_defer_free`.  `rcu_update` gives back the
  memory of tables that are in it, and changes nothing else.
* `pos` of an iterator is `idx + 1`.
* Loops run on fuel; a call that runs out of it returns nothing.  So does
  `ht_iter_begin` where it would wait for ever for a table without references.
-/
import Ssr.HashtableCalls
import Ssr.Interleaving

open Interleaving Map Hashtable

namespace HashtableIter

/-! ## State -/

/-- `ht_iter_t`; `id` is the pointer that the caller has. -/
structure Iter where
  id : ℕ
  hti : ℕ
  pos : ℕ
  deriving DecidableEq, Repr

/-- A hash table with its reference counts and its open iterators. -/
structure St where
  ht : Ht
  refCount : ℕ → ℤ
  freed : List ℕ
  iters : List Iter
  nextId : ℕ

/-- `ht_alloc`. -/
def init : St where
  ht := htAlloc
  refCount := fun _ => 1
  freed := []
  iters := []
  nextId := 0

/-- `hti_release`. -/
def St.htiRelease (s : St) (i : ℕ) : St :=
  let refCount := s.refCount i - 1
  { s with
    refCount := Function.update s.refCount i refCount
    freed := if refCount = 0 then i :: s.freed else s.freed }

/-! ## The calls -/

/-- `ht_cas`. -/
def htCas (kt : KeyType) (fuel : ℕ) (s : St) (key expected new : ℕ) : Option (ℕ × St) :=
  let i := s.ht.hti
  if i + 1 < s.ht.len then
    match htiHelpCopy kt fuel s.ht i with
    | none => none
    | some (finished, ht) =>
      -- unlink fully copied tables
      let s := if finished then { s with ht := { ht with hti := i + 1 } }.htiRelease i
        else { s with ht := ht }
      (casLoop kt fuel s.ht i key expected new).map fun (r, ht) => (r, { s with ht := ht })
  else (casLoop kt fuel s.ht i key expected new).map fun (r, ht) => (r, { s with ht := ht })

/-- `ht_remove`. -/
def htRemove (kt : KeyType) (fuel : ℕ) (s : St) (key : ℕ) : Option (ℕ × St) :=
  (Hashtable.htRemove kt fuel s.ht key).map fun (r, ht) => (r, { s with ht := ht })

/-- `do { } while (hti_help_copy(hti) != TRUE)`. -/
def helpUntilCopied (kt : KeyType) : ℕ → Ht → ℕ → Option Ht
  | 0, _, _ => none
  | fuel + 1, ht, i =>
    match htiHelpCopy kt fuel ht i with
    | none => none
    | some (true, ht) => some ht
    | some (false, ht) => helpUntilCopied kt fuel ht i

/-- The loop of `ht_iter_begin` to the last table. -/
def lastTable (kt : KeyType) : ℕ → Ht → ℕ → Option (ℕ × Ht)
  | 0, _, _ => none
  | fuel + 1, ht, i =>
    if i + 1 < ht.len then
      match helpUntilCopied kt fuel ht i with
      | none => none
      | some ht => lastTable kt fuel ht (i + 1)
    else some (i, ht)

/-- `ht_iter_begin`; the key is not looked at. -/
def htIterBegin (kt : KeyType) (fuel : ℕ) (s : St) : Option (ℕ × St) :=
  match lastTable kt fuel s.ht s.ht.hti with
  | none => none
  | some (i, ht) =>
    if s.refCount i = 0 then none
    else
      some (s.nextId,
        { s with
          ht := ht
          refCount := Function.update s.refCount i (s.refCount i + 1)
          iters := ⟨s.nextId, i, 0⟩ :: s.iters
          nextId := s.nextId + 1 })

/-- The loop of `ht_iter_next`: the entry it stops at, or the size of the table. -/
def nextEntry (kt : KeyType) (h : Hti) : ℕ → ℕ → Option ℕ
  | 0, _ => none
  | fuel + 1, idx =>
    if idx = 2 ^ h.scale then some idx
    else
      let key := kt.keyOf (h.table idx).key
      let val := (h.table idx).val
      if key = doesNotExist ∨ val = doesNotExist ∨ val = tombstone then nextEntry kt h fuel (idx + 1)
      else some idx

/-- `ht_iter_next` on table `i`: the key and the value it returns, the next position, and
the table it leaves. -/
def iterNext (kt : KeyType) : ℕ → Ht → ℕ → ℕ → Option ((ℕ × ℕ) × ℕ × Ht)
  | 0, _, _, _ => none
  | fuel + 1, ht, i, pos =>
    match nextEntry kt (ht.tables i) fuel pos with
    | none => none
    | some idx =>
      if idx = 2 ^ (ht.tables i).scale then some ((doesNotExist, doesNotExist), idx + 1, ht)
      else
        let w := ht.key i idx
        if ht.val i idx = copiedValue then
          match htiGet kt fuel ht (i + 1) w (kt.hash (kt.keyOf w)) with
          | none => none
          | some (val, ht) =>
            -- go to the next entry if the key is already deleted
            if val = doesNotExist then iterNext kt fuel ht i (idx + 1)
            else some ((kt.keyOf w, val), idx + 1, ht)
        else some ((kt.keyOf w, ht.val i idx), idx + 1, ht)

/-- The open iterator of that name. -/
def St.iter (s : St) (id : ℕ) : Option Iter := s.iters.find? fun it => it.id = id

/-- `ht_iter_next`. -/
def htIterNext (kt : KeyType) (fuel : ℕ) (s : St) (id : ℕ) : Option (ℕ × St) :=
  match s.iter id with
  | none => none
  | some it =>
    (iterNext kt fuel s.ht it.hti it.pos).map fun ((_, val), pos, ht) =>
      (val, { s with ht := ht, iters := { it with pos := pos } :: s.iters.erase it })

/-- `ht_iter_free`. -/
def htIterFree (s : St) (id : ℕ) : Option (ℕ × St) :=
  match s.iter id with
  | none => none
  | some it => some (0, { s.htiRelease it.hti with iters := s.iters.erase it })

/-- A call. -/
inductive Call where
  | cas (key expected new : ℕ)
  | remove (key : ℕ)
  | iterBegin (key : ℕ)
  | iterNext (id : ℕ)
  | iterFree (id : ℕ)
  | rcuUpdate
  deriving DecidableEq, Repr

/-- What a call returns, and the state it leaves. -/
def call (kt : KeyType) (fuel : ℕ) (s : St) : Call → Option (ℕ × St)
  | .cas key expected new => htCas kt fuel s key expected new
  | .remove key => htRemove kt fuel s key
  | .iterBegin _ => htIterBegin kt fuel s
  | .iterNext id => htIterNext kt fuel s id
  | .iterFree id => htIterFree s id
  | .rcuUpdate => some (0, s)

/-- Calls one after the other. -/
def sys (kt : KeyType) (fuel : ℕ) (s : St) (c : Call) : Option St := (call kt fuel s c).map (·.2)

/-! ## What is wanted -/

/-- No table that an open iterator can read, its own or one behind it, has been passed to
`hti_defer_free`. -/
def St.Safe (s : St) : Prop :=
  ∀ it ∈ s.iters, ∀ j, it.hti ≤ j → j < s.ht.len → j ∉ s.freed

/-- `ht_cas` unlinks the first table. -/
def Unlinks (kt : KeyType) (fuel : ℕ) (s : St) : Prop :=
  s.ht.hti + 1 < s.ht.len ∧ (htiHelpCopy kt fuel s.ht s.ht.hti).map (·.1) = some true

instance (kt : KeyType) (fuel : ℕ) (s : St) : Decidable (Unlinks kt fuel s) :=
  inferInstanceAs (Decidable (_ ∧ _))

/-- Where the last reference to table `j` is given up, no iterator is open on a table
before it. -/
def St.Droppable (s : St) (j : ℕ) : Prop := s.refCount j = 1 → ∀ it ∈ s.iters, j ≤ it.hti

instance (s : St) (j : ℕ) : Decidable (s.Droppable j) := inferInstanceAs (Decidable (_ → _))

/-- The condition on one call. -/
def Fits (kt : KeyType) (fuel : ℕ) (s : St) : Call → Prop
  | .cas _ _ _ => Unlinks kt fuel s → s.Droppable s.ht.hti
  | .iterFree id => ∀ it ∈ s.iter id, s.Droppable it.hti
  | _ => True

instance (kt : KeyType) (fuel : ℕ) (s : St) (c : Call) : Decidable (Fits kt fuel s c) := by
  unfold Fits
  split <;> infer_instance

end HashtableIter
