/-
# The hash table (`src/map/hashtable.c`): tables, entries and lookup

The data of the hash table, and the functions of it that do not change anything.

* A word is a number.  `TAG1` is its bit 63, so that `TAG_VALUE` and `STRIP_TAG` are the
  arithmetic below on words under `2 ^ 64`.
* `key_type == NULL` is `KeyType.integer`, with the hash function of integer keys as its
  argument.  A key of a `datatype_t` is a pointer; an entry holds the pointer with 16 bits
  of the hash above it.  `clone n p` is the pointer that the `n`-th call of `clone` returns.
* A chain of tables is a sequence: `hti->next` of table `i` is table `i + 1` when there is
  one.  `hti` is the number of the table that `ht->hti` points to.
* The `int` arithmetic of `get_next_ndx` does not overflow up to scale 30.
* `ref_count`, and `hti_copies`, `density` and `probe` of the parent, are left out: nothing
  below reads them.
-/
import Ssr.Map
import Ssr.Migration

open Map Migration

namespace Hashtable

/-! ## Words -/

/-- `IS_TAGGED(v, TAG1)`. -/
def IsTagged (v : ℕ) : Prop := 2 ^ 63 ≤ v

instance (v : ℕ) : Decidable (IsTagged v) := inferInstanceAs (Decidable (_ ≤ _))

/-- `TAG_VALUE(v, TAG1)`. -/
def tagValue (v : ℕ) : ℕ := if IsTagged v then v else v + 2 ^ 63

/-- `STRIP_TAG(v, TAG1)`. -/
def stripTag (v : ℕ) : ℕ := v % 2 ^ 63

/-- `COPIED_VALUE`. -/
def copiedValue : ℕ := tagValue doesNotExist

/-- `TOMBSTONE`. -/
def tombstone : ℕ := stripTag (2 ^ 64 - 1)

/-- The entry has been copied, or killed. -/
def Dead (v : ℕ) : Prop := v = copiedValue ∨ v = tagValue tombstone

instance (v : ℕ) : Decidable (Dead v) := inferInstanceAs (Decidable (_ ∨ _))

/-- A value that `ht_cas` takes: non-zero, without tag, and not `TOMBSTONE`. -/
def Legal (v : ℕ) : Prop := v ≠ doesNotExist ∧ ¬ IsTagged v ∧ v ≠ tombstone

instance (v : ℕ) : Decidable (Legal v) := inferInstanceAs (Decidable (_ ∧ _))

/-- `ENTRIES_PER_BUCKET`. -/
def entriesPerBucket : ℕ := 4

/-- `ENTRIES_PER_COPY_CHUNK`. -/
def entriesPerCopyChunk : ℕ := 8

/-- `MIN_SCALE`. -/
def minScale : ℕ := 4

/-! ## Keys -/

/-- `datatype_t`. -/
structure Datatype where
  cmp : ℕ → ℕ → ℤ
  hash : ℕ → ℕ
  clone : ℕ → ℕ → ℕ

/-- What the table relies on: `cmp` is an equality, `hash` agrees on equal keys, and a
clone is an equal key at a pointer of at most 48 bits. -/
structure Datatype.Lawful (d : Datatype) : Prop where
  cmp_refl : ∀ p, d.cmp p p = 0
  cmp_symm : ∀ p q, d.cmp p q = 0 → d.cmp q p = 0
  cmp_trans : ∀ p q r, d.cmp p q = 0 → d.cmp q r = 0 → d.cmp p r = 0
  hash_eq : ∀ p q, d.cmp p q = 0 → d.hash p = d.hash q
  clone_ne : ∀ n p, d.clone n p ≠ 0
  clone_lt : ∀ n p, d.clone n p < 2 ^ 48
  clone_cmp : ∀ n p, d.cmp (d.clone n p) p = 0

/-- `ht->key_type`. -/
inductive KeyType where
  | integer (hash : ℕ → ℕ)
  | typed (d : Datatype)

namespace KeyType

/-- See `Datatype.Lawful`; there is nothing to ask of integer keys. -/
def Lawful : KeyType → Prop
  | integer _ => True
  | typed d => d.Lawful

/-- The hash of a key. -/
def hash : KeyType → ℕ → ℕ
  | integer h, key => h key
  | typed d, key => d.hash key

/-- `GET_PTR`. -/
def getPtr (w : ℕ) : ℕ := w % 2 ^ 48

/-- The key of an entry. -/
def keyOf : KeyType → ℕ → ℕ
  | integer _, w => w
  | typed _, w => getPtr w

/-- The comparison of `hti_lookup`: the key word of an entry, and a key with its hash. -/
def keyEq : KeyType → ℕ → ℕ → ℕ → Bool
  | integer _, w, key, _ => w = key
  | typed d, w, key, keyHash => keyHash / 2 ^ 16 = w / 2 ^ 48 ∧ d.cmp (getPtr w) key = 0

/-- `new_key` of `hti_cas`: the `n`-th clone, with bits from the hash. -/
def newKey : KeyType → ℕ → ℕ → ℕ → ℕ
  | integer _, _, key, _ => key
  | typed d, n, key, keyHash => keyHash / 2 ^ 16 * 2 ^ 48 + d.clone n key

/-- Two keys that the table does not tell apart. -/
def Same : KeyType → ℕ → ℕ → Prop
  | integer _, a, b => a = b
  | typed d, a, b => d.cmp a b = 0

instance (kt : KeyType) (a b : ℕ) : Decidable (kt.Same a b) :=
  match kt with
  | integer _ => inferInstanceAs (Decidable (a = b))
  | typed d => inferInstanceAs (Decidable (d.cmp a b = 0))

end KeyType

/-! ## Tables -/

/-- `entry_t`. -/
structure Entry where
  key : ℕ
  val : ℕ
  deriving DecidableEq, Repr

/-- `hti_t`. -/
structure Hti where
  table : ℕ → Entry
  count : ℕ
  keyCount : ℕ
  copyScan : ℕ
  numEntriesCopied : ℕ
  probe : ℕ
  scale : ℕ

/-- `hti_alloc`. -/
def htiAlloc (scale : ℕ) : Hti :=
  let probe := scale * 3 / 2 + 2
  let quarter := 2 ^ (scale - 2) / entriesPerBucket
  { table := fun _ => ⟨doesNotExist, 0⟩
    count := 0
    keyCount := 0
    copyScan := 0
    numEntriesCopied := 0
    probe := if quarter < probe ∧ 4 < quarter then quarter else probe
    scale := scale }

/-- `get_next_ndx`. -/
def getNextNdx (oldNdx keyHash scale : ℕ) : ℕ :=
  let incr := keyHash / 2 ^ (32 - scale)
  let incr := if incr < entriesPerBucket then incr + entriesPerBucket else incr
  (oldNdx + incr) % 2 ^ scale

/-- The entries of a bucket, from entry `ndx` on and around. -/
def bucket (ndx : ℕ) : List ℕ :=
  (List.range entriesPerBucket).map fun j =>
    ndx / entriesPerBucket * entriesPerBucket + (ndx + j) % entriesPerBucket

/-- The entries of `n` buckets in the order of `hti_lookup`. -/
def probesFrom (keyHash scale : ℕ) : ℕ → ℕ → List ℕ
  | 0, _ => []
  | n + 1, ndx => bucket ndx ++ probesFrom keyHash scale n (getNextNdx ndx keyHash scale)

namespace Hti

/-- The entries that `hti_lookup` looks at. -/
def probes (h : Hti) (keyHash : ℕ) : List ℕ :=
  probesFrom keyHash h.scale h.probe (keyHash % 2 ^ h.scale)

/-- `hti_lookup` stops at entry `e`: it is empty, or has the key. -/
def stopsAt (kt : KeyType) (h : Hti) (key keyHash e : ℕ) : Bool :=
  (h.table e).key = doesNotExist ∨ kt.keyEq (h.table e).key key keyHash = true

/-- `hti_lookup`; `is_empty` is whether the key of the entry is `DOES_NOT_EXIST`. -/
def lookup (kt : KeyType) (h : Hti) (key keyHash : ℕ) : Option ℕ :=
  (h.probes keyHash).find? (h.stopsAt kt key keyHash)

/-- Store into the key of entry `e`. -/
def setKey (h : Hti) (e w : ℕ) : Hti :=
  { h with table := Function.update h.table e { h.table e with key := w } }

/-- Store into the value of entry `e`. -/
def setVal (h : Hti) (e v : ℕ) : Hti :=
  { h with table := Function.update h.table e { h.table e with val := v } }

end Hti

/-- `struct ht` with its chain of tables. -/
structure Ht where
  hti : ℕ
  tables : ℕ → Hti
  len : ℕ
  clones : ℕ

namespace Ht

/-- Replace table `i`. -/
def setTable (s : Ht) (i : ℕ) (h : Hti) : Ht := { s with tables := Function.update s.tables i h }

/-- The key of entry `e` of table `i`. -/
def key (s : Ht) (i e : ℕ) : ℕ := ((s.tables i).table e).key

/-- The value of entry `e` of table `i`. -/
def val (s : Ht) (i e : ℕ) : ℕ := ((s.tables i).table e).val

/-- Store into the key of entry `e` of table `i`. -/
def setKey (s : Ht) (i e w : ℕ) : Ht := s.setTable i ((s.tables i).setKey e w)

/-- Store into the value of entry `e` of table `i`. -/
def setVal (s : Ht) (i e v : ℕ) : Ht := s.setTable i ((s.tables i).setVal e v)

/-- `SYNC_ADD(&hti->count, n)` on `size_t`. -/
def addCount (s : Ht) (i n : ℕ) : Ht :=
  s.setTable i { s.tables i with count := ((s.tables i).count + n) % 2 ^ 64 }

/-- `SYNC_ADD(&hti->key_count, 1)`. -/
def addKeyCount (s : Ht) (i : ℕ) : Ht :=
  s.setTable i { s.tables i with keyCount := (s.tables i).keyCount + 1 }

/-- `SYNC_ADD(&hti->num_entries_copied, n)`. -/
def addCopied (s : Ht) (i n : ℕ) : Ht :=
  s.setTable i { s.tables i with numEntriesCopied := (s.tables i).numEntriesCopied + n }

/-- `hti->copy_scan = x`. -/
def setCopyScan (s : Ht) (i x : ℕ) : Ht := s.setTable i { s.tables i with copyScan := x }

/-- A new table behind the last one. -/
def append (s : Ht) (h : Hti) : Ht := { s.setTable s.len h with len := s.len + 1 }

/-- A clone was made. -/
def cloned (s : Ht) : Ht := { s with clones := s.clones + 1 }

end Ht

/-- The scale of the table that `hti_start_copy` allocates. -/
def newScale (scale count keyCount : ℕ) : ℕ :=
  scale + if 2 ^ (scale - 1) < count ∨ 2 ^ (scale - 2) + 2 ^ (scale - 3) < keyCount then 1 else 0

/-- `ht_alloc`. -/
def htAlloc : Ht where
  hti := 0
  tables := fun _ => htiAlloc minScale
  len := 1
  clones := 0

/-! ## What the table means -/

/-- What the value of an entry says about its key. -/
def cellOf (v : ℕ) : Cell ℕ :=
  if v = copiedValue then .copied
  else if v = tagValue tombstone then .buried
  else if IsTagged v then .moving (stripTag v)
  else if v = doesNotExist then .blank
  else if v = tombstone then .tomb
  else .live v

/-- `hti_lookup` of a key with its hash in table `i`. -/
def Ht.find (kt : KeyType) (s : Ht) (k i : ℕ) : Option ℕ :=
  (s.tables i).lookup kt k (kt.hash k)

/-- What table `i` has for a key. -/
def Ht.cell (kt : KeyType) (s : Ht) (k i : ℕ) : Cell ℕ :=
  match s.find kt k i with
  | none => .full
  | some e => if s.key i e = doesNotExist then .vacant else cellOf (s.val i e)

/-- **The abstraction**: the value of a key in the chain that starts at `ht->hti`. -/
def Ht.absMap (kt : KeyType) (s : Ht) (k : ℕ) : Option ℕ := value (s.cell kt k) s.hti s.len

end Hashtable
