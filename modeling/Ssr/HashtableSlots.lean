/-
# The slots of a table

Threads put keys into the entries of a table at the same time, and a lookup of another
thread may be under way.  A key of an entry is never taken back, so that what `hti_lookup`
has passed it would pass again, and where it has come to an end it comes to the same end
ever after.

* `Pc.lookup` — what `hti_lookup` returns, when the next step of the thread ends it;
* `lookup_spec` — this is what a lookup in one step would find;
* `persists_run` — what a run leaves alone;
* `one_slot_per_key` — whole runs.
-/
import Ssr.HashtableRuns

open Interleaving Map Migration Hashtable

namespace HashtableSteps

/-- The next step of the thread ends a `hti_lookup`: the key, the table, and the entry that
is returned; `NULL` is `none`. -/
def Pc.lookup (kt : KeyType) (s : Shared) : Pc → Option (ℕ × ℕ × Option ℕ)
  | .find f j e rest =>
    if s.ht.key j e = doesNotExist
        ∨ kt.keyEq (s.ht.key j e) (f.key kt) (f.keyHash kt) = true then
      some (f.key kt, j, some e)
    else if rest = [] then some (f.key kt, j, none)
    else none
  | _ => none

section Lookup

variable {kt : KeyType} {c c' : Conf Shared Pc} {es : List (ℕ × Cmd)} {s : Shared} {pc : Pc}
  {t i j e e' k k' : ℕ} {r : Option ℕ}

/-- The hash of a lookup is that of its key. -/
theorem Finder.At.keyHash {f : Finder} (hf : f.At kt s.ht j) : f.keyHash kt = kt.hash (f.key kt) := by
  cases f with
  | op o => rfl
  | copy c u w => exact hf.2.2

/-- **A lookup that ends** returns what a lookup in one step would find. -/
theorem lookup_spec (hl : Loc kt t s pc) (h : pc.lookup kt s = some (k, j, r)) :
    j < s.ht.len ∧ s.ht.find kt k j = r := by
  cases pc with
  | find f i e rest =>
    obtain ⟨hat, hfind⟩ : f.At kt s.ht i ∧ Finding kt s.ht (f.key kt) i (e :: rest) := hl.knows
    have hstops : (s.ht.tables i).stopsAt kt (f.key kt) (kt.hash (f.key kt)) e = true ↔
        s.ht.key i e = doesNotExist
          ∨ kt.keyEq (s.ht.key i e) (f.key kt) (f.keyHash kt) = true := by
      rw [hat.keyHash]
      exact Hti.stopsAt_iff
    simp only [Pc.lookup] at h
    split_ifs at h with hstop hrest
    · cases h
      exact ⟨hat.lt, hfind.find (hstops.mpr hstop)⟩
    · cases h
      subst hrest
      exact ⟨hat.lt, (hfind.next fun hs => hstop (hstops.mp hs)).none⟩
  | _ => cases h

/-! ## Runs -/

theorem persists_run (hkt : kt.Lawful) (hc : c.Holds (Shared.Inv kt) (Loc kt))
    (hrun : run (sys kt) c es = some c') :
    Persists c.shared.ht c'.shared.ht ∧ c'.Holds (Shared.Inv kt) (Loc kt) := by
  induction es generalizing c with
  | nil =>
    cases hrun
    exact ⟨Persists.refl _, hc⟩
  | cons x es ih =>
    obtain ⟨c₁, hstep, hrun⟩ := run_cons_eq_some.mp hrun
    obtain ⟨hp, hc'⟩ := ih (holds_step hkt hc hstep) hrun
    exact ⟨(grows_step hkt hc hstep).persists.trans hp, hc'⟩

/-- The entry of a key. -/
theorem find_of_key (hkt : kt.Lawful) (hc : c.Holds (Shared.Inv kt) (Loc kt))
    (hi : i < c.shared.ht.len) (hkey : c.shared.ht.key i e ≠ doesNotExist)
    (hsame : kt.Same (kt.keyOf (c.shared.ht.key i e)) k) : c.shared.ht.find kt k i = some e :=
  (hc.1.chain.find_iff hkt hi hkey).mpr hsame

theorem slot_unique (hkt : kt.Lawful) (hc : c.Holds (Shared.Inv kt) (Loc kt))
    (hi : i < c.shared.ht.len) (hkey : c.shared.ht.key i e ≠ doesNotExist)
    (hkey' : c.shared.ht.key i e' ≠ doesNotExist)
    (hsame : kt.Same (kt.keyOf (c.shared.ht.key i e)) (kt.keyOf (c.shared.ht.key i e'))) :
    e = e' := by
  have hfind := find_of_key hkt hc hi hkey hsame
  rw [hc.1.chain.found i e' hi hkey'] at hfind
  exact (Option.some.inj hfind).symm

/-- A lookup that ends later, of a key that is in the table. -/
theorem lookup_of_key (hkt : kt.Lawful) (hc : c.Holds (Shared.Inv kt) (Loc kt))
    (hrun : run (sys kt) c es = some c') (hi : i < c.shared.ht.len)
    (hkey : c.shared.ht.key i e ≠ doesNotExist)
    (hsame : kt.Same (kt.keyOf (c.shared.ht.key i e)) k)
    (hlookup : (c'.thread t).lookup kt c'.shared = some (k, i, r)) : r = some e := by
  obtain ⟨hp, hc'⟩ := persists_run hkt hc hrun
  obtain ⟨-, hfind⟩ := lookup_spec (hc'.2 t) hlookup
  rw [← hfind]
  exact hp.find_some hi (find_of_key hkt hc hi hkey hsame) hkey

/-- A table without room for a key never gets it. -/
theorem absent_of_full (hkt : kt.Lawful) (hc : c.Holds (Shared.Inv kt) (Loc kt))
    (hrun : run (sys kt) c es = some c') (hi : i < c.shared.ht.len)
    (hfull : c.shared.ht.find kt k i = none) : c'.shared.ht.find kt k i = none
      ∧ ∀ e, c'.shared.ht.key i e ≠ doesNotExist →
        ¬ kt.Same (kt.keyOf (c'.shared.ht.key i e)) k := by
  obtain ⟨hp, hc'⟩ := persists_run hkt hc hrun
  have hnone := hp.find_none hi hfull
  refine ⟨hnone, fun e hkey hsame => ?_⟩
  have hfind := find_of_key hkt hc' (hi.trans_le hp.len) hkey hsame
  rw [hnone] at hfind
  cases hfind

/-- **One slot per key**, in every run.  No two entries of a table have equal keys; the key of
an entry stays, and every later lookup of it returns that entry; and when `hti_lookup` has
returned `NULL`, later lookups of the key do, and the key never comes into the table. -/
theorem one_slot_per_key (kt : KeyType) (hkt : kt.Lawful) (es : List (ℕ × Cmd))
    (c : Conf Shared Pc) (hrun : run (sys kt) init es = some c) :
    (∀ i e e', i < c.shared.ht.len → c.shared.ht.key i e ≠ doesNotExist →
      c.shared.ht.key i e' ≠ doesNotExist →
      kt.Same (kt.keyOf (c.shared.ht.key i e)) (kt.keyOf (c.shared.ht.key i e')) → e = e')
    ∧ ∀ es' c', run (sys kt) c es' = some c' →
      (∀ i e, i < c.shared.ht.len → c.shared.ht.key i e ≠ doesNotExist →
        c'.shared.ht.key i e = c.shared.ht.key i e
          ∧ ∀ k, kt.Same (kt.keyOf (c.shared.ht.key i e)) k →
            c'.shared.ht.find kt k i = some e
              ∧ ∀ t r, (c'.thread t).lookup kt c'.shared = some (k, i, r) → r = some e)
      ∧ ∀ t k i, (c.thread t).lookup kt c.shared = some (k, i, none) →
        (∀ e, c'.shared.ht.key i e ≠ doesNotExist →
          ¬ kt.Same (kt.keyOf (c'.shared.ht.key i e)) k)
        ∧ ∀ k', kt.Same k k' → c'.shared.ht.find kt k' i = none
          ∧ ∀ u r, (c'.thread u).lookup kt c'.shared = some (k', i, r) → r = none := by
  have hc := holds_run hkt hrun
  refine ⟨fun i e e' hi => slot_unique hkt hc hi, fun es' c' hrun' => ?_⟩
  obtain ⟨hp, hc'⟩ := persists_run hkt hc hrun'
  refine ⟨fun i e hi hkey => ⟨hp.key i e hi hkey, fun k hsame => ⟨?_, fun t r => ?_⟩⟩,
    fun t k i hnull => ?_⟩
  · exact hp.find_some hi (find_of_key hkt hc hi hkey hsame) hkey
  · exact lookup_of_key hkt hc hrun' hi hkey hsame
  · obtain ⟨hi, hfull⟩ := lookup_spec (hc.2 t) hnull
    obtain ⟨hnone, habsent⟩ := absent_of_full hkt hc hrun' hi hfull
    refine ⟨habsent, fun k' hsame => ?_⟩
    have hnone' : c'.shared.ht.find kt k' i = none := by
      rw [← Ht.find_same hkt hsame]
      exact hnone
    refine ⟨hnone', fun u r hlookup => ?_⟩
    rw [← (lookup_spec (hc'.2 u) hlookup).2]
    exact hnone'

end Lookup

/-! ## Two threads and one key -/

/-- Two threads set the same key; both have found the entry empty, and one has put its key
there. -/
def sameKey : List (ℕ × Cmd) :=
  [(0, .cas ⟨5, expectWhatever, 7⟩), (1, .cas ⟨5, expectWhatever, 8⟩)]
    ++ (List.replicate 4 [(0, .resume), (1, .resume)]).flatten ++ [(0, .resume)]

/-- The thread that has lost the race comes to the same entry. -/
theorem one_slot_per_key_race : ∃ c c', run (sys oneHash) init sameKey = some c
    ∧ run (sys oneHash) c [(1, .resume)] = some c' ∧ c'.shared.ht.key 0 0 = 5
    ∧ ∃ r, (c'.thread 1).lookup oneHash c'.shared = some (5, 0, r) ∧ r = some 0 := by
  have hmap : ((run (sys oneHash) init sameKey).bind fun c =>
      (run (sys oneHash) c [(1, .resume)]).map fun c' => (c.shared.ht.len, c.shared.ht.key 0 0,
        ((c'.thread 1).lookup oneHash c'.shared).map fun l => (l.1, l.2.1)))
      = some (1, 5, some (5, 0)) := by
    decide +kernel
  obtain ⟨c, hrun, hmap⟩ := Option.bind_eq_some_iff.mp hmap
  obtain ⟨c', hrun', hmap⟩ := Option.map_eq_some_iff.mp hmap
  simp only [Prod.mk.injEq] at hmap
  obtain ⟨hlen, hkey, hlookup⟩ := hmap
  obtain ⟨⟨k, i, r⟩, hlookup, heq⟩ := Option.map_eq_some_iff.mp hlookup
  obtain ⟨rfl, rfl⟩ := Prod.mk.inj heq
  have hne : c.shared.ht.key 0 0 ≠ doesNotExist := by
    rw [hkey]
    decide
  obtain ⟨hkept, hslot⟩ := ((one_slot_per_key oneHash trivial sameKey c hrun).2 _ c' hrun').1 0 0
    (by omega) hne
  exact ⟨c, c', hrun, hrun', hkept.trans hkey, r, hlookup, (hslot 5 hkey).2 1 r hlookup⟩

end HashtableSteps
