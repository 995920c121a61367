/-
# The hash table by many threads (`src/map/hashtable.c`)

`ht_cas`, `ht_get`, `ht_remove`, and the helping of `ht_iter_begin` and `ht_iter_next`, with
the functions that they call, as programs of atomic steps: every load, store and atomic operation on the tables
is one step.

* Tables are not reclaimed while they are used, so that `hti->next` and the key of an entry
  are written once.  The loads of the scale and of the probe limit of a table are no steps:
  nothing writes them.
* `hti_copies`, `density`, `probe` of the parent and `ref_count` are left out: no step below
  reads them.
* `ht_remove` calls `hti_cas` with `CAS_EXPECT_WHATEVER` and `DOES_NOT_EXIST`.  `next` is
  `ht_iter_next` where it has found `COPIED_VALUE` for a key in table `i`.
* `trues`, `won` and `owed` are history: how often `hti_copy_entry` returned `TRUE` for an
  entry; the thread that put its value into another table and has not returned yet; and the
  `TRUE`s, with their thread and table, that are not in `num_entries_copied` yet.
-/
import Ssr.Interleaving
import Ssr.HashtableCalls

open Interleaving Map Hashtable

namespace HashtableSteps

/-! ## Where a thread stands -/

/-- The arguments of `hti_cas`. -/
structure Args where
  key : ℕ
  expected : ℕ
  new : ℕ
  deriving DecidableEq, Repr

/-- What goes from table to table: `hti_cas`, or `hti_get`, for an iterator or not. -/
inductive Op where
  | set (a : Args)
  | get (key : ℕ) (iter : Bool)
  deriving DecidableEq, Repr

/-- The key of an operation. -/
def Op.key : Op → ℕ
  | set a => a.key
  | get key _ => key

/-- A running `hti_help_copy`: for `ht_cas`, or for `ht_iter_begin`; with `total_copied`, the
number of entries that are left to copy, and `num_copied`. -/
structure Help where
  who : Option Args
  total : ℕ
  left : ℕ
  num : ℕ
  deriving DecidableEq, Repr

/-- What calls `hti_copy_entry`. -/
inductive Source where
  | op (o : Op)
  | help (g : Help)
  deriving DecidableEq, Repr

/-- A running `hti_copy_entry` of entry `e` of table `i`. -/
structure Copy where
  src : Source
  i : ℕ
  e : ℕ
  keyHash : ℕ
  deriving DecidableEq, Repr

/-- What calls `hti_lookup`; a copy has the value `u` and the key `w` of its entry. -/
inductive Finder where
  | op (o : Op)
  | copy (c : Copy) (u w : ℕ)
  deriving DecidableEq, Repr

/-- What calls `hti_start_copy`. -/
inductive Grower where
  | set (a : Args)
  | copy (c : Copy)
  deriving DecidableEq, Repr

/-- The call that loads `ht->hti`. -/
inductive Begin where
  | cas (a : Args)
  | op (o : Op)
  | iter
  deriving DecidableEq, Repr

/-- Where a thread stands, with the locals that are live there. -/
inductive Pc where
  | returned (r : ℕ)
  -- ht_cas, ht_get, ht_remove, ht_iter_begin
  | hti (b : Begin)
  | check (who : Option Args) (i : ℕ)
  | unlinkNext (a : Args) (i : ℕ)
  | unlink (a : Args) (i : ℕ)
  | iterNext (i : ℕ)
  | nextTable (o : Op) (i : ℕ)
  -- hti_help_copy
  | helpTotal (who : Option Args) (i : ℕ)
  | helpScan (who : Option Args) (i total : ℕ)
  | helpStore (who : Option Args) (i total x : ℕ)
  | helpAdd (g : Help) (i : ℕ)
  -- hti_lookup
  | find (f : Finder) (j e : ℕ) (rest : List ℕ)
  -- hti_start_copy
  | growNext (g : Grower) (j : ℕ)
  | growHti (g : Grower) (j : ℕ)
  | growCount (g : Grower) (j m count : ℕ)
  | growStep (g : Grower) (j m count : ℕ)
  | growKeys (g : Grower) (j count : ℕ)
  | growCas (g : Grower) (j scale : ℕ)
  -- hti_cas
  | install (a : Args) (i e : ℕ)
  | key (a : Args) (i e w : ℕ)
  | keyCount (a : Args) (i e : ℕ)
  | val (a : Args) (i e : ℕ)
  | swap (a : Args) (i e v : ℕ)
  | count (a : Args) (i v : ℕ)
  -- hti_get
  | getNext (key : ℕ) (iter : Bool) (i : ℕ)
  | getVal (key : ℕ) (iter : Bool) (i e : ℕ)
  -- hti_cas and hti_get
  | addCopied (o : Op) (i : ℕ)
  -- hti_copy_entry
  | copyTo (c : Copy) (j : ℕ)
  | copyVal (c : Copy) (j : ℕ)
  | copyKill (c : Copy) (j : ℕ)
  | copyTag (c : Copy) (j : ℕ)
  | copyKey (c : Copy) (j u : ℕ)
  | copyInstall (c : Copy) (j u f w : ℕ)
  | copyKeyCount (c : Copy) (j u f : ℕ)
  | copyPut (c : Copy) (j u f : ℕ)
  | copyStore (c : Copy) (j : ℕ) (did : Bool)
  | copySub (c : Copy) (j : ℕ)
  | copyAdd (c : Copy) (j : ℕ)
  deriving DecidableEq, Repr

/-- The input of a step: a call, or the next step of the running one. -/
inductive Cmd where
  | cas (a : Args)
  | get (key : ℕ)
  | remove (key : ℕ)
  | iter
  | next (key i : ℕ)
  | resume
  deriving DecidableEq, Repr

/-- The tables and the history. -/
structure Shared where
  ht : Ht
  trues : ℕ → ℕ → ℕ
  won : ℕ → ℕ → Option ℕ
  owed : List (ℕ × ℕ)

namespace Shared

/-- `hti_copy_entry` of thread `t` returns `TRUE` for entry `e` of table `i`. -/
def credit (s : Shared) (t i e : ℕ) : Shared :=
  { s with
    trues := Function.update s.trues i (Function.update (s.trues i) e (s.trues i e + 1))
    owed := (t, i) :: s.owed }

/-- Who put the value of entry `e` of table `i` into another table. -/
def setWon (s : Shared) (i e : ℕ) (r : Option ℕ) : Shared :=
  { s with won := Function.update s.won i (Function.update (s.won i) e r) }

/-- What thread `t` owes to table `i` is counted. -/
def settle (s : Shared) (t i : ℕ) : Shared :=
  { s with owed := s.owed.filter (· ≠ (t, i)) }

/-- Store into the value of entry `e` of table `i`. -/
def setVal (s : Shared) (i e v : ℕ) : Shared := { s with ht := s.ht.setVal i e v }

end Shared

/-! ## What comes next -/

/-- What a call makes of the value that `hti_cas` or `hti_get` returns. -/
def result (v : ℕ) : ℕ := if v = tombstone then doesNotExist else v

namespace Finder

variable (kt : KeyType)

/-- The key of a lookup. -/
def key : Finder → ℕ
  | op o => o.key
  | copy _ _ w => kt.keyOf w

/-- The hash of a lookup. -/
def keyHash : Finder → ℕ
  | op o => kt.hash o.key
  | copy c _ _ => c.keyHash

/-- `hti_lookup` returns `NULL`. -/
def noRoom : Finder → ℕ → Pc
  | op (.set a), j => .growNext (.set a) j
  | op (.get key iter), j => .getNext key iter j
  | copy c _ _, j => .growNext (.copy c) j

/-- `hti_lookup` returns an empty entry. -/
def empty : Finder → ℕ → ℕ → Pc
  | op (.set a), j, e =>
    if (a.expected ≠ expectWhatever ∧ a.expected ≠ expectDoesNotExist) ∨ a.new = doesNotExist then
      .returned doesNotExist
    else .install a j e
  | op (.get _ _), _, _ => .returned doesNotExist
  | copy c u w, j, e => .copyInstall c j u e w

/-- `hti_lookup` returns an entry with the key. -/
def found : Finder → ℕ → ℕ → Pc
  | op (.set a), j, e => .val a j e
  | op (.get key iter), j, e => .getVal key iter j e
  | copy c u _, j, e => .copyPut c j u e

/-- The loop of `hti_lookup`, with the entries that are left. -/
def search (f : Finder) (j : ℕ) : List ℕ → Pc
  | [] => f.noRoom j
  | e :: rest => .find f j e rest

end Finder

/-- `hti_cas` or `hti_get` of table `i`. -/
def Op.start (kt : KeyType) (h : Ht) (o : Op) (i : ℕ) : Pc :=
  Finder.search (.op o) i ((h.tables i).probes (kt.hash o.key))

/-- What follows `hti_start_copy`. -/
def Grower.next : Grower → ℕ → Pc
  | set a, j => .nextTable (.set a) j
  | copy c, j => .copyTo c j

/-- What follows `hti_help_copy`. -/
def helped (kt : KeyType) (h : Ht) (who : Option Args) (i : ℕ) (finished : Bool) : Pc :=
  match who with
  | some a => if finished then .unlinkNext a i else (Op.set a).start kt h i
  | none => if finished then .iterNext i else .helpTotal none i

/-- The head of the loop of `hti_help_copy`, at entry `e`. -/
def Help.next (kt : KeyType) (h : Ht) (g : Help) (i e : ℕ) : Pc :=
  match g.left with
  | 0 =>
    if g.num = 0 then helped kt h g.who i (g.total = 2 ^ (h.tables i).scale) else .helpAdd g i
  | n + 1 => .copyTo ⟨.help { g with left := n }, i, e, 0⟩ i

/-- `hti_copy_entry` returns. -/
def Copy.next (kt : KeyType) (h : Ht) (c : Copy) (did : Bool) : Pc :=
  match c.src with
  | .op o => if did then .addCopied o c.i else .nextTable o c.i
  | .help g => ({ g with num := g.num + did.toNat } : Help).next kt h c.i (c.e + 1)

/-! ## The steps -/

/-- An entry had a value: `old_existed`. -/
def Existed (v : ℕ) : Prop := v ≠ tombstone ∧ v ≠ doesNotExist

instance (v : ℕ) : Decidable (Existed v) := inferInstanceAs (Decidable (_ ∧ _))

/-- `hti_cas` returns the value `v` that it found, and stores nothing. -/
def Args.Keeps (a : Args) (v : ℕ) : Prop :=
  (a.expected ≠ expectWhatever ∧ a.expected ≠ v
      ∧ a.expected ≠ if Existed v then expectExists else expectDoesNotExist)
    ∨ (a.new = doesNotExist ∧ ¬ Existed v) ∨ v = a.new

instance (a : Args) (v : ℕ) : Decidable (a.Keeps v) := inferInstanceAs (Decidable (_ ∨ _))

/-- The word that `hti_cas` stores. -/
def Args.word (a : Args) : ℕ := if a.new = doesNotExist then tombstone else a.new

/-- A call begins. -/
def invoke : Pc → Cmd → Option Pc
  | .returned _, .cas a =>
    if (a.key ≠ doesNotExist ∧ a.key < 2 ^ 64) ∧ Legal a.new then some (.hti (.cas a)) else none
  | .returned _, .get key => some (.hti (.op (.get key false)))
  | .returned _, .remove key =>
    if key ≠ doesNotExist ∧ key < 2 ^ 64 then
      some (.hti (.op (.set ⟨key, expectWhatever, doesNotExist⟩)))
    else none
  | .returned _, .iter => some (.hti .iter)
  | .returned _, .next key i => some (.getNext key true i)
  | _, _ => none

/-- The next step of the running call of thread `t`. -/
def resume (kt : KeyType) (t : ℕ) (s : Shared) : Pc → Option (Shared × Pc)
  | .returned _ => none
  | .hti (.cas a) => some (s, .check (some a) s.ht.hti)
  | .hti (.op o) => some (s, o.start kt s.ht s.ht.hti)
  | .hti .iter => some (s, .check none s.ht.hti)
  | .check who i =>
    if i + 1 < s.ht.len then some (s, .helpTotal who i)
    else
      match who with
      | some a => some (s, (Op.set a).start kt s.ht i)
      | none => some (s, .returned doesNotExist)
  | .unlinkNext a i => if i + 1 < s.ht.len then some (s, .unlink a i) else none
  | .unlink a i =>
    some (if s.ht.hti = i then { s with ht := { s.ht with hti := i + 1 } } else s,
      (Op.set a).start kt s.ht i)
  | .iterNext i => if i + 1 < s.ht.len then some (s, .check none (i + 1)) else none
  | .nextTable o i =>
    if i + 1 < s.ht.len then some (s, o.start kt s.ht (i + 1)) else none
  -- hti_help_copy
  | .helpTotal who i => some (s, .helpScan who i (s.ht.tables i).numEntriesCopied)
  | .helpScan who i total =>
    let size := 2 ^ (s.ht.tables i).scale
    let x := (s.ht.tables i).copyScan
    if total = size then some (s, helped kt s.ht who i true)
    -- panic after two passes over the table
    else if 2 ^ ((s.ht.tables i).scale + 1) ≤ x then
      some (s, (⟨who, total, size, 0⟩ : Help).next kt s.ht i 0)
    else some (s, .helpStore who i total x)
  | .helpStore who i total x =>
    some ({ s with ht := s.ht.setCopyScan i (x + entriesPerCopyChunk) },
      (⟨who, total, entriesPerCopyChunk, 0⟩ : Help).next kt s.ht i
        (x % 2 ^ (s.ht.tables i).scale))
  | .helpAdd g i =>
    let ht := s.ht.addCopied i g.num
    some ({ s.settle t i with ht := ht },
      helped kt ht g.who i ((ht.tables i).numEntriesCopied = 2 ^ (ht.tables i).scale))
  -- hti_lookup
  | .find f j e rest =>
    if s.ht.key j e = doesNotExist then some (s, f.empty j e)
    else if kt.keyEq (s.ht.key j e) (f.key kt) (f.keyHash kt) = true then some (s, f.found j e)
    else some (s, f.search j rest)
  -- hti_start_copy
  | .growNext g j =>
    if j + 1 < s.ht.len then some (s, g.next j) else some (s, .growHti g j)
  | .growHti g j => some (s, .growCount g j s.ht.hti 0)
  | .growCount g j m count =>
    some (s, .growStep g j m ((count + (s.ht.tables m).count) % 2 ^ 64))
  | .growStep g j m count =>
    if m + 1 < s.ht.len then some (s, .growCount g j (m + 1) count)
    else some (s, .growKeys g j count)
  | .growKeys g j count =>
    some (s, .growCas g j (newScale (s.ht.tables j).scale count (s.ht.tables j).keyCount))
  | .growCas g j scale =>
    some (if j + 1 < s.ht.len then s else { s with ht := s.ht.append (htiAlloc scale) }, g.next j)
  -- hti_cas
  | .install a i e =>
    some ({ s with ht := s.ht.cloned },
      .key a i e (kt.newKey s.ht.clones a.key (kt.hash a.key)))
  | .key a i e w =>
    if s.ht.key i e = doesNotExist then
      some ({ s with ht := s.ht.setKey i e w }, .keyCount a i e)
    else some (s, (Op.set a).start kt s.ht i)
  | .keyCount a i e => some ({ s with ht := s.ht.addKeyCount i }, .val a i e)
  | .val a i e =>
    let v := s.ht.val i e
    if IsTagged v then
      if Dead v then some (s, .nextTable (.set a) i)
      else some (s, .copyTo ⟨.op (.set a), i, e, kt.hash a.key⟩ i)
    else if a.Keeps v then some (s, .returned (result v))
    else some (s, .swap a i e v)
  | .swap a i e v =>
    if s.ht.val i e = v then
      some (s.setVal i e a.word,
        if Existed v ↔ a.new ≠ doesNotExist then .returned (result v) else .count a i v)
    else some (s, (Op.set a).start kt s.ht i)
  | .count a i v =>
    some ({ s with ht := s.ht.addCount i (if a.new = doesNotExist then 2 ^ 64 - 1 else 1) },
      .returned (result v))
  -- hti_get
  | .getNext key iter i =>
    if i + 1 < s.ht.len then some (s, .nextTable (.get key iter) i)
    else some (s, .returned doesNotExist)
  | .getVal key iter i e =>
    let v := s.ht.val i e
    if IsTagged v then
      if Dead v then some (s, .nextTable (.get key iter) i)
      else some (s, .copyTo ⟨.op (.get key iter), i, e, kt.hash key⟩ i)
    else some (s, .returned (result v))
  -- hti_cas and hti_get
  | .addCopied o i =>
    some ({ s.settle t i with ht := s.ht.addCopied i 1 }, .nextTable o i)
  -- hti_copy_entry
  | .copyTo c j => if j + 1 < s.ht.len then some (s, .copyVal c (j + 1)) else none
  | .copyVal c j =>
    let v := s.ht.val c.i c.e
    if Dead v then some (s, c.next kt s.ht false)
    else if v = doesNotExist then some (s, .copyKill c j)
    else some (s, .copyTag c j)
  | .copyKill c j =>
    if s.ht.val c.i c.e = doesNotExist then
      some ((s.setVal c.i c.e copiedValue).credit t c.i c.e, c.next kt s.ht true)
    else some (s, .copyTag c j)
  | .copyTag c j =>
    let v := s.ht.val c.i c.e
    let s := s.setVal c.i c.e (tagValue v)
    if Dead v then some (s, c.next kt s.ht false)
    else if v = tombstone then some (s.credit t c.i c.e, c.next kt s.ht true)
    else some (s, .copyKey c j (stripTag v))
  | .copyKey c j u =>
    let w := s.ht.key c.i c.e
    let keyHash := if c.keyHash = 0 then kt.hash (kt.keyOf w) else c.keyHash
    some (s, Finder.search (.copy { c with keyHash := keyHash } u w) j
      ((s.ht.tables j).probes keyHash))
  | .copyInstall c j u f w =>
    if s.ht.key j f = doesNotExist then
      some ({ s with ht := s.ht.setKey j f w }, .copyKeyCount c j u f)
    else some (s, .copyVal c j)
  | .copyKeyCount c j u f => some ({ s with ht := s.ht.addKeyCount j }, .copyPut c j u f)
  | .copyPut c j u f =>
    let old := s.ht.val j f
    if old = doesNotExist then
      some ((s.setVal j f u).setWon c.i c.e (some t), .copyStore c j true)
    -- the key may have come into a dead entry
    else if old = copiedValue then some (s, .copyTo c j)
    else some (s, .copyStore c j false)
  | .copyStore c j did =>
    let s := s.setVal c.i c.e copiedValue
    some (s, if did then .copySub c j else c.next kt s.ht false)
  | .copySub c j => some ({ s with ht := s.ht.addCount c.i (2 ^ 64 - 1) }, .copyAdd c j)
  | .copyAdd c j =>
    some ((({ s with ht := s.ht.addCount j 1 } : Shared).setWon c.i c.e none).credit t c.i c.e,
      c.next kt s.ht true)

/-- A call that has returned takes no further step. -/
theorem resume_returned (kt : KeyType) (t : ℕ) (s : Shared) (r : ℕ) :
    resume kt t s (.returned r) = none := by
  simp only [resume]

/-- One atomic step of thread `t`. -/
def step (kt : KeyType) (t : ℕ) (s : Shared) (pc : Pc) : Cmd → Option (Shared × Pc)
  | .resume => resume kt t s pc
  | cmd => (invoke pc cmd).map fun pc' => (s, pc')

/-- The system of all threads. -/
def sys (kt : KeyType) (c : Conf Shared Pc) (e : ℕ × Cmd) : Option (Conf Shared Pc) :=
  interleave (step kt) c e

/-- The table after `ht_alloc`. -/
def init : Conf Shared Pc where
  shared := ⟨htAlloc, fun _ _ => 0, fun _ _ => none, []⟩
  thread := fun _ => .returned 0

/-! ## The map and the answers -/

/-- **The abstraction**: the value of a key in the chain of tables that starts at `ht->hti`. -/
def absMap (kt : KeyType) (c : Conf Shared Pc) (k : ℕ) : Option ℕ := c.shared.ht.absMap kt k

/-- What the call will return, where that is settled. -/
def Pc.answer : Pc → Option ℕ
  | .returned r => some r
  | .count _ _ v => some (result v)
  | _ => none

end HashtableSteps
