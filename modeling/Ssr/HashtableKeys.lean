/-
# The keys of a typed hash table (`src/map/hashtable.c`)

Who frees the objects that `key_type->clone` makes: `ht_cas`, `ht_get`, `ht_remove` and
`ht_free` of a table with a `datatype_t`, for one thread.

* The calls do to the chain what those of `Ssr.HashtableCalls` do.  Nobody iterates, so
  every table has the one reference of the chain, and `hti_release` passes it to
  `hti_defer_free` at once.
* A key object is the pointer to it.  `nbd_free` on a clone is for a race that a single
  thread does not lose.
* `made`, `freed`, `early` and `lost` are history: the pointers that `clone` returned,
  those passed to `rcu_defer_free`, those among them that an entry still referred to, and
  those that came into an entry that was dead.
-/
import Ssr.HashtableCalls
import Ssr.Interleaving

open Interleaving Map Hashtable

namespace HashtableKeys

/-! ## State -/

/-- A typed hash table with the history of its key objects. -/
structure St where
  ht : Ht
  made : List ℕ
  freed : List ℕ
  early : List ℕ
  lost : List ℕ

/-- `ht_alloc`. -/
def init : St where
  ht := htAlloc
  made := []
  freed := []
  early := []
  lost := []

/-- What `hti_defer_free` does with an entry: the pointer that it passes to
`rcu_defer_free`. -/
def deferKey (ent : Entry) : List ℕ :=
  if ent.val = copiedValue then []
  else if ent.key ≠ doesNotExist then [KeyType.getPtr ent.key] else []

/-- The pointers that `hti_defer_free` passes to `rcu_defer_free`. -/
def htiDeferFree (h : Hti) : List ℕ := (List.range (2 ^ h.scale)).flatMap fun i => deferKey (h.table i)

/-- An entry of a table of the chain that is not dead refers to the object at `p`. -/
def RefersTo (s : Ht) (p : ℕ) : Prop :=
  ∃ i, i < s.len ∧ s.hti ≤ i ∧ ∃ e, e < 2 ^ (s.tables i).scale ∧ ¬ Dead (s.val i e)
    ∧ s.key i e ≠ doesNotExist ∧ KeyType.getPtr (s.key i e) = p

instance (s : Ht) (p : ℕ) : Decidable (RefersTo s p) :=
  inferInstanceAs (Decidable (∃ i, i < s.len ∧ _))

/-- The chain goes on with the next table, and the first one is released. -/
def St.release (s : St) : St :=
  let ht := { s.ht with hti := s.ht.hti + 1 }
  let ptrs := htiDeferFree (s.ht.tables s.ht.hti)
  { s with
    ht := ht
    freed := s.freed ++ ptrs
    early := s.early ++ ptrs.filter fun p => RefersTo ht p }

/-! ## The calls -/

/-- The entry for a key is empty, and the copy has killed it. -/
def KilledAt (kt : KeyType) (s : Ht) (i key : ℕ) : Prop :=
  ∃ e ∈ s.find kt key i, s.key i e = doesNotExist ∧ s.val i e = copiedValue

instance (kt : KeyType) (s : Ht) (i key : ℕ) : Decidable (KilledAt kt s i key) :=
  inferInstanceAs (Decidable (∃ e ∈ s.find kt key i, _))

/-- `hti_cas` puts its clone into an entry that is dead. -/
def InstallsDead (kt : KeyType) (s : Ht) (i key expected new : ℕ) : Prop :=
  (expected = expectWhatever ∨ expected = expectDoesNotExist) ∧ new ≠ doesNotExist
    ∧ KilledAt kt s i key

instance (kt : KeyType) (s : Ht) (i key expected new : ℕ) :
    Decidable (InstallsDead kt s i key expected new) := inferInstanceAs (Decidable (_ ∧ _ ∧ _))

/-- The clones that the loop of `ht_cas` puts into dead entries. -/
def lostClones (d : Datatype) : ℕ → Ht → ℕ → ℕ → ℕ → ℕ → List ℕ
  | 0, _, _, _, _, _ => []
  | fuel + 1, s, i, key, expected, new =>
    match htiCas (.typed d) fuel s i key (d.hash key) expected new with
    | none => []
    | some (old, s') =>
      (if InstallsDead (.typed d) s i key expected new then [d.clone s.clones key] else [])
        ++ if old = copiedValue then lostClones d fuel s' (i + 1) key expected new else []

/-- The loop of `ht_cas` and of `ht_remove`. -/
def St.loop (d : Datatype) (fuel : ℕ) (s : St) (i key expected new : ℕ) : Option (ℕ × St) :=
  (casLoop (.typed d) fuel s.ht i key expected new).map fun (r, ht) =>
    (r,
      { s with
        ht := ht
        made := s.made ++ (List.range' s.ht.clones (ht.clones - s.ht.clones)).map fun n => d.clone n key
        lost := s.lost ++ lostClones d fuel s.ht i key expected new })

/-- `ht_cas` until its loop: the state after helping, in which the loop starts. -/
def St.helped (d : Datatype) (fuel : ℕ) (s : St) : Option St :=
  if s.ht.hti + 1 < s.ht.len then
    (htiHelpCopy (.typed d) fuel s.ht s.ht.hti).map fun (finished, ht) =>
      -- unlink fully copied tables
      if finished then { s with ht := ht }.release else { s with ht := ht }
  else some s

/-- `ht_cas`. -/
def htCas (d : Datatype) (fuel : ℕ) (s : St) (key expected new : ℕ) : Option (ℕ × St) :=
  match s.helped d fuel with
  | none => none
  | some s' => s'.loop d fuel s.ht.hti key expected new

/-- What a call returns, and the state it leaves. -/
def call (d : Datatype) (fuel : ℕ) (s : St) : Call → Option (ℕ × St)
  | .cas key expected new => htCas d fuel s key expected new
  | .get key => (htGet (.typed d) fuel s.ht key).map fun (r, ht) => (r, { s with ht := ht })
  | .remove key => s.loop d fuel s.ht.hti key expectWhatever doesNotExist
  | .count => some (htCount s.ht, s)

/-- Calls one after the other. -/
def sys (d : Datatype) (fuel : ℕ) (s : St) (c : Call) : Option St := (call d fuel s c).map (·.2)

/-- The loop of `ht_free` over `n` tables. -/
def freeTables : ℕ → St → St
  | 0, s => s
  | n + 1, s => freeTables n s.release

/-- `ht_free`. -/
def htFree (s : St) : St := freeTables (s.ht.len - s.ht.hti) s

/-! ## What is wanted -/

/-- Every key object is passed to `rcu_defer_free` exactly once, and none while an entry
that is not dead refers to it. -/
def St.KeysFreed (s : St) : Prop := (htFree s).freed.Perm (htFree s).made ∧ (htFree s).early = []

/-- `clone` returns no pointer to an object that has not been freed. -/
def St.Fresh (s : St) : Prop := ∀ p, s.made.count p ≤ s.freed.count p + 1

/-- A call passes table `i` by: there is no room for the key, or its entry is dead. -/
def PassesBy (kt : KeyType) (s : Ht) (i key : ℕ) : Prop :=
  ∀ e ∈ s.find kt key i, s.key i e ≠ doesNotExist ∧ Dead (s.val i e)

instance (kt : KeyType) (s : Ht) (i key : ℕ) : Decidable (PassesBy kt s i key) :=
  inferInstanceAs (Decidable (∀ e ∈ s.find kt key i, _))

/-- The first table, from table `i` on, that a call does not pass by has a killed entry for
the key. -/
def MeetsKilled (kt : KeyType) (s : Ht) (i key : ℕ) : Prop :=
  ∃ j, j < s.len ∧ i ≤ j ∧ (∀ x, x < j → i ≤ x → PassesBy kt s x key) ∧ KilledAt kt s j key

instance (kt : KeyType) (s : Ht) (i key : ℕ) : Decidable (MeetsKilled kt s i key) :=
  inferInstanceAs (Decidable (∃ j, j < s.len ∧ _))

/-- The condition on one call: when its loop starts with a key that it may insert, the loop
does not come to an empty entry that the copy has killed. -/
def Fits (d : Datatype) (fuel : ℕ) (s : St) : Call → Prop
  | .cas key expected _ =>
    (expected = expectWhatever ∨ expected = expectDoesNotExist) →
      ∀ s' ∈ s.helped d fuel, ¬ MeetsKilled (.typed d) s'.ht s.ht.hti key
  | _ => True

instance (d : Datatype) (fuel : ℕ) (s : St) (c : Call) : Decidable (Fits d fuel s c) :=
  match c with
  | .cas _ _ _ | .get _ | .remove _ | .count => by unfold Fits; infer_instance

end HashtableKeys
