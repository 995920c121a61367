/-
# The map implementations side by side

What the sequential results on the list, the two skiplists and the hash table say about
each other.

* `skiplists_agree` — the lock-free skiplist and the plain one, with any heights;
* `keys_do_not_alias` — the list and the skiplist with arbitrary keys, as long as one
  order agrees with the truncated differences;
* `maps_agree_iff` — the list, the skiplist and the hash table agree exactly when no
  `map_cas` expects another value than the one that is there.
-/
import Ssr.ListCalls
import Ssr.SkipListCalls
import Ssr.UnsafeSkipList
import Ssr.HashtableMap

open SortedMap Sequential Chain

namespace Map

/-! ## Maps that the calls leave -/

/-- A sorted map with keys in `K` and without the value `DOES_NOT_EXIST`. -/
structure Proper (rank : ℕ ↪ ℤ) (K : ℕ → Prop) (m : List (ℕ × ℕ)) : Prop where
  sorted : Sorted rank m
  vals : ∀ p ∈ m, p.2 ≠ doesNotExist
  keys : ∀ p ∈ m, K p.1

section Proper

variable {rank : ℕ ↪ ℤ} {K : ℕ → Prop} {m : List (ℕ × ℕ)} {c : Call}

theorem proper_nil : Proper rank K [] := ⟨List.Pairwise.nil, by simp, by simp⟩

theorem Proper.callBy {met : ℕ → Option ℕ → Prop} [∀ e old, Decidable (met e old)]
    (hm : Proper rank K m) (hc : c.Asserted) (hk : ∀ key ∈ c.key?, K key) :
    Proper rank K (callBy met rank m c).2 := by
  cases c with
  | cas key expectation new =>
    simp only [Map.callBy]
    split_ifs
    · refine ⟨hm.sorted.put, ?_, ?_⟩
      · intro p hp
        rcases mem_put hp with hp | rfl
        · exact hm.vals p hp
        · exact hc.1.ne'
      · intro p hp
        rcases mem_put hp with hp | rfl
        · exact hm.keys p hp
        · exact hk key rfl
    · exact hm
  | remove key =>
    exact ⟨hm.sorted.erase, fun p hp => hm.vals p (List.mem_filter.mp hp).1,
      fun p hp => hm.keys p (List.mem_filter.mp hp).1⟩
  | get key => exact hm
  | count => exact hm
  | minKey => exact hm

/-- A value that is there is not `DOES_NOT_EXIST`. -/
theorem Proper.get_ne (hm : Proper rank K m) {key v : ℕ} (hget : get m key = some v) :
    v ≠ doesNotExist :=
  hm.vals (key, v) ((get_eq_some_iff hm.sorted.nodup).mp hget)

end Proper

/-- An exact expectation is the value that is there, or the new value is there already. -/
def Call.ExactMet (m : List (ℕ × ℕ)) : Call → Prop
  | .cas key expectation new =>
    (expectation ≠ expectDoesNotExist ∧ expectation ≠ expectExists
      ∧ expectation ≠ expectWhatever) →
    ∀ v ∈ SortedMap.get m key, v = expectation ∨ v = new
  | _ => True

instance (m : List (ℕ × ℕ)) (c : Call) : Decidable (c.ExactMet m) :=
  match c with
  | .cas _ _ _ => inferInstanceAs (Decidable (_ → _))
  | .get _ | .remove _ | .count | .minKey => inferInstanceAs (Decidable True)

/-- A call without an exact expectation. -/
theorem Call.exactMet_of_special {m : List (ℕ × ℕ)} {c : Call} (h : c.exactValue? = none) :
    c.ExactMet m := by
  cases c with
  | cas key expectation new =>
    rintro ⟨hd, he, hw⟩
    simp only [Call.exactValue?, hd, he, hw, or_self, if_false] at h
    cases h
  | get key => trivial
  | remove key => trivial
  | count => trivial
  | minKey => trivial

/-- What the lists make of an expectation does not matter when it is met. -/
theorem looseCall_eq_call {rank : ℕ ↪ ℤ} {K : ℕ → Prop} {m : List (ℕ × ℕ)} {c : Call}
    (hm : Proper rank K m) (hc : c.ExactMet m) : looseCall rank m c = call rank m c := by
  cases c with
  | cas key expectation new =>
    refine Prod.ext rfl ?_
    show (if LooselyMet expectation (get m key) then put rank m key new else m)
      = if Met expectation (get m key) then put rank m key new else m
    rcases hget : get m key with _ | v
    · simp only [looselyMet_none, met_none]
    · have hv := hm.get_ne hget
      by_cases hnone : expectation = expectDoesNotExist
      · have hmet : ¬ Met expectation (some v) := by
          rw [hnone]
          rintro (h | ⟨h, -⟩ | ⟨-, h⟩ | h)
          · exact absurd h (by decide)
          · exact absurd h (by decide)
          · cases h
          · exact hv (Option.some.inj h)
        rw [if_neg hmet, if_neg fun h => looselyMet_some.mp h hnone]
      · rw [if_pos (looselyMet_some.mpr hnone)]
        split_ifs with hmet
        · rfl
        · -- the value is there already
          have hexact : expectation ≠ expectDoesNotExist ∧ expectation ≠ expectExists
              ∧ expectation ≠ expectWhatever := by
            refine ⟨hnone, fun h => hmet ?_, fun h => hmet (Or.inl h)⟩
            exact Or.inr (Or.inl ⟨h, by simp⟩)
          rcases hc hexact v hget with rfl | rfl
          · exact absurd (Or.inr (Or.inr (Or.inr rfl))) hmet
          · exact hm.sorted.put_self hget
  | get key => rfl
  | remove key => rfl
  | count => rfl
  | minKey => rfl

/-- A key in `[1, 2 ^ 31)`. -/
def Small (key : ℕ) : Prop := 0 < key ∧ key < 2 ^ 31

instance (key : ℕ) : Decidable (Small key) := inferInstanceAs (Decidable (_ ∧ _))

theorem Proper.ordered {m : List (ℕ × ℕ)} {c : Call} (hm : Proper natural Small m)
    (hc : ∀ key ∈ c.key?, Small key) : c.Ordered natural m :=
  fun key hkey p hp => agrees_of_small (hm.keys p hp).2 (hc key hkey).2

/-! ## The two skiplists -/

/-- A call with a small key, an asserted value and one of the three special expectations,
and two numbers that `nbd_rand` may draw in it. -/
def SkipCall (c : Call × ℕ × ℕ) : Prop :=
  (∀ key ∈ c.1.key?, Small key) ∧ c.1.Asserted ∧ c.1.exactValue? = none ∧ c.2.1 < 32 ∧ c.2.2 < 32

instance (c : Call × ℕ × ℕ) : Decidable (SkipCall c) := by
  unfold SkipCall
  infer_instance

/-- **The skiplists agree.**  With one number drawn for the lock-free skiplist and another
for the plain one in every call, both return what the sorted finite map returns; and
both are left with sorted levels, each a part of the one below. -/
theorem skiplists_agree (cs : List (Call × ℕ × ℕ)) (hcs : ∀ c ∈ cs, SkipCall c) :
    ∃ fuel h g chain chain',
      (∀ fuel' ≥ fuel,
        calls (fun fuel h c => SkipList.exec fuel h (c.1, c.2.1)) fuel' SkipList.init.shared cs
          = some ((specCalls (fun m c => call natural m c.1) [] cs).1, h)
        ∧ calls (fun fuel g c => UnsafeSkipList.exec fuel g (c.1, c.2.2)) fuel'
            UnsafeSkipList.init cs
          = some ((specCalls (fun m c => call natural m c.1) [] cs).1, g))
      ∧ h.shape.Levels natural chain ∧ g.shape.Levels natural chain' := by
  have hmeets : Meets (fun m (c : Call × ℕ × ℕ) => call natural m c.1)
      (fun m c => Proper natural Small m ∧ SkipCall c) [] cs :=
    (meets_of_forall hcs []).invariant (fun m c hm hc => hm.callBy hc.2.1 hc.1) proper_nil
  obtain ⟨hloose, hmeets'⟩ : _ ∧ Meets (fun m (c : Call × ℕ × ℕ) => looseCall natural m c.1) _ [] cs :=
    hmeets.congr fun m c hc => looseCall_eq_call hc.1 (Call.exactMet_of_special hc.2.2.2.1)
  obtain ⟨fuel, h, hrun, xs, ht, -⟩ := SkipList.calls_refines
    (fun c : Call × ℕ × ℕ => (c.1, c.2.1))
    (hmeets'.mono fun m c hc => ⟨hc.2.2.2.2.1, hc.2.2.1, hc.1.ordered hc.2.1⟩)
  obtain ⟨fuel', g, hrun', ys, ht', -⟩ := UnsafeSkipList.calls_refines
    (fun c : Call × ℕ × ℕ => (c.1, c.2.2))
    (hmeets.mono fun m c hc => ⟨hc.2.2.2.2.2, hc.2.2.1, hc.1.ordered hc.2.1⟩)
  refine ⟨max fuel fuel', h, g, _, _, fun n hn => ⟨?_, ?_⟩, ht.shape.levels, ht'.shape.levels⟩
  · rw [hrun n (le_trans (le_max_left _ _) hn), hloose]
  · exact hrun' n (le_trans (le_max_right _ _) hn)

/-- Keys come and go, with towers of different heights on the two sides. -/
def climbs : List (Call × ℕ × ℕ) :=
  [(.cas 5 expectDoesNotExist 50, 9, 0), (.cas 3 expectWhatever 30, 0, 7),
    (.cas 8 expectDoesNotExist 80, 5, 31), (.cas 5 expectExists 51, 31, 2), (.minKey, 0, 0),
    (.remove 3, 0, 0), (.minKey, 0, 0), (.get 5, 0, 0), (.remove 4, 0, 0), (.count, 0, 0)]

/-- The hypothesis can hold. -/
theorem skiplists_agree_climbs : (∀ c ∈ climbs, SkipCall c) ∧ ∃ fuel h g chain chain',
    (∀ fuel' ≥ fuel,
      calls (fun fuel h c => SkipList.exec fuel h (c.1, c.2.1)) fuel' SkipList.init.shared climbs
        = some ([0, 0, 0, 50, 3, 30, 5, 51, 0, 2], h)
      ∧ calls (fun fuel g c => UnsafeSkipList.exec fuel g (c.1, c.2.2)) fuel'
          UnsafeSkipList.init climbs
        = some ([0, 0, 0, 50, 3, 30, 5, 51, 0, 2], g))
    ∧ h.shape.Levels natural chain ∧ g.shape.Levels natural chain' := by
  have hcs : ∀ c ∈ climbs, SkipCall c := by decide
  refine ⟨hcs, ?_⟩
  have hspec : (specCalls (fun m c => call natural m c.1) [] climbs).1
      = [0, 0, 0, 50, 3, 30, 5, 51, 0, 2] := by decide
  rw [← hspec]
  exact skiplists_agree climbs hcs

/-! ## Arbitrary keys -/

/-- A request, with the number that `nbd_rand` may draw in it, on the list. -/
def listExec (fuel : ℕ) (h : LinkedList.Heap) (r : Request × ℕ) : Option (ℕ × LinkedList.Heap) :=
  LinkedList.exec fuel h r.1.call

/-- The same on the skiplist. -/
def skipExec (fuel : ℕ) (h : SkipList.Heap) (r : Request × ℕ) : Option (ℕ × SkipList.Heap) :=
  SkipList.exec fuel h (r.1.call, r.2)

/-- What a request returns on the sorted map. -/
def mapExec (rank : ℕ ↪ ℤ) (m : List (ℕ × ℕ)) (r : Request × ℕ) : ℕ × List (ℕ × ℕ) :=
  call rank m r.1.call

/-- What it returns on a map that takes an expectation as the lists do. -/
def looseExec (rank : ℕ ↪ ℤ) (m : List (ℕ × ℕ)) (r : Request × ℕ) : ℕ × List (ℕ × ℕ) :=
  looseCall rank m r.1.call

/-- A request other than `map_cas` with an exact expectation; the key is a non-zero word. -/
def PlainRequest (r : Request × ℕ) : Prop :=
  (∀ key ∈ r.1.call.key?, 0 < key ∧ key < 2 ^ 64) ∧ r.1.call.Asserted ∧ r.1.call.exactValue? = none
    ∧ r.2 < 32

instance (r : Request × ℕ) : Decidable (PlainRequest r) := by
  unfold PlainRequest
  infer_instance

theorem Request.call_ne_minKey (r : Request) : r.call ≠ .minKey := by
  cases r <;> exact nofun

/-- The list under a sequence of requests. -/
theorem list_runs {rank : ℕ ↪ ℤ} {rs : List (Request × ℕ)} (hok : Meets (looseExec rank)
    (fun m r => r.1.call.Asserted ∧ r.1.call.Ordered rank m) [] rs) :
    ∃ fuel h, (∀ fuel' ≥ fuel, calls listExec fuel' LinkedList.init.shared rs
        = some ((specCalls (looseExec rank) [] rs).1, h))
      ∧ h.Refines rank (specCalls (looseExec rank) [] rs).2 :=
  LinkedList.calls_refines (fun r : Request × ℕ => r.1.call)
    (hok.mono fun _ r hr => ⟨r.1.call_ne_minKey, hr⟩)

/-- The skiplist under a sequence of requests. -/
theorem skip_runs {rank : ℕ ↪ ℤ} {rs : List (Request × ℕ)} (hok : Meets (looseExec rank)
    (fun m r => r.2 < 32 ∧ r.1.call.Asserted ∧ r.1.call.Ordered rank m) [] rs) :
    ∃ fuel h, (∀ fuel' ≥ fuel, calls skipExec fuel' SkipList.init.shared rs
        = some ((specCalls (looseExec rank) [] rs).1, h))
      ∧ h.Refines rank (specCalls (looseExec rank) [] rs).2 :=
  SkipList.calls_refines (fun r : Request × ℕ => (r.1.call, r.2)) hok

/-- **No two keys alias** when every key that is asked for is compared with the keys that
are there as one order says: the list and the skiplist return what the finite map
returns, and their bottom chains are sorted in that order. -/
theorem keys_do_not_alias (rank : ℕ ↪ ℤ) (rs : List (Request × ℕ))
    (hrs : ∀ r ∈ rs, PlainRequest r)
    (hord : Meets (mapExec rank) (fun m r => r.1.call.Ordered rank m) [] rs) :
    ∃ fuel h g xs ys,
      (∀ fuel' ≥ fuel,
        calls listExec fuel' LinkedList.init.shared rs
          = some ((specCalls (mapExec rank) [] rs).1, h)
        ∧ calls skipExec fuel' SkipList.init.shared rs
          = some ((specCalls (mapExec rank) [] rs).1, g))
      ∧ (Links h.succ 0 xs ∧ xs.Pairwise fun a b => rank (h.node a).key < rank (h.node b).key)
      ∧ (Links (g.shape.succ 0) 0 ys
        ∧ ys.Pairwise fun a b => rank (g.node a).key < rank (g.node b).key) := by
  have hmeets : Meets (mapExec rank) (fun m r => Proper rank (fun _ => True) m
      ∧ PlainRequest r ∧ r.1.call.Ordered rank m) [] rs :=
    ((meets_of_forall hrs []).and hord).invariant
      (fun m r hm hr => hm.callBy hr.1.2.1 fun _ _ => trivial) proper_nil
  have hloose : specCalls (looseExec rank) [] rs = specCalls (mapExec rank) [] rs ∧ _ :=
    hmeets.congr fun m r hr => looseCall_eq_call hr.1 (Call.exactMet_of_special hr.2.1.2.2.1)
  obtain ⟨fuel, h, hrun, xs, hc, -⟩ := list_runs
    (hloose.2.mono fun m r hr => ⟨hr.2.1.2.1, hr.2.2⟩)
  obtain ⟨fuel', g, hrun', ys, ht, -⟩ := skip_runs
    (hloose.2.mono fun m r hr => ⟨hr.2.1.2.2.2, hr.2.1.2.1, hr.2.2⟩)
  refine ⟨max fuel fuel', h, g, xs, ys, fun n hn => ⟨?_, ?_⟩, ⟨hc.links, hc.sorted⟩,
    ht.shape.bottom, ht.shape.sorted⟩
  · rw [hrun n (le_trans (le_max_left _ _) hn), hloose.1]
  · rw [hrun' n (le_trans (le_max_right _ _) hn), hloose.1]

/-- Keys far apart, but not by `2 ^ 31` or more. -/
def farApart : List (Request × ℕ) :=
  [(.add (2 ^ 40) 7, 3), (.set (2 ^ 40 + 2 ^ 30) 8, 0), (.replace (2 ^ 40) 9, 0),
    (.get (2 ^ 40 + 1), 0), (.remove (2 ^ 40 + 2 ^ 30), 0), (.get (2 ^ 40), 0)]

/-- The hypotheses can hold. -/
theorem keys_do_not_alias_far : (∀ r ∈ farApart, PlainRequest r)
    ∧ Meets (mapExec natural) (fun m r => r.1.call.Ordered natural m) [] farApart
    ∧ ∃ fuel h g xs ys,
      (∀ fuel' ≥ fuel,
        calls listExec fuel' LinkedList.init.shared farApart = some ([0, 0, 7, 0, 8, 9], h)
        ∧ calls skipExec fuel' SkipList.init.shared farApart = some ([0, 0, 7, 0, 8, 9], g))
      ∧ (Links h.succ 0 xs
        ∧ xs.Pairwise fun a b => natural (h.node a).key < natural (h.node b).key)
      ∧ (Links (g.shape.succ 0) 0 ys
        ∧ ys.Pairwise fun a b => natural (g.node a).key < natural (g.node b).key) := by
  have hrs : ∀ r ∈ farApart, PlainRequest r := by decide +kernel
  have hord : Meets (mapExec natural) (fun m r => r.1.call.Ordered natural m) [] farApart := by
    refine ⟨?_, ?_, ?_, ?_, ?_, ?_, trivial⟩
    all_goals decide +kernel
  have hspec : (specCalls (mapExec natural) [] farApart).1 = [0, 0, 7, 0, 8, 9] := by
    decide +kernel
  refine ⟨hrs, hord, ?_⟩
  rw [← hspec]
  exact keys_do_not_alias natural farApart hrs hord

/-- Two keys that differ by `2 ^ 32`. -/
def aliased : List (Request × ℕ) := [(.add 1 7, 0), (.get (2 ^ 32 + 1), 0)]

/-- The second key was never added, and both lists find the value of the first. -/
theorem keys_alias : (∀ r ∈ aliased, PlainRequest r)
    ∧ (∀ rank, (specCalls (mapExec rank) [] aliased).1 = [0, 0])
    ∧ (calls listExec 60 LinkedList.init.shared aliased).map (·.1) = some [0, 7]
    ∧ (calls skipExec 60 SkipList.init.shared aliased).map (·.1) = some [0, 7] := by
  refine ⟨by decide +kernel, fun rank => ?_, by decide +kernel, by decide +kernel⟩
  simp [specCalls, mapExec, aliased, callBy, Request.call, Met, SortedMap.get, put,
    expectDoesNotExist, doesNotExist]

/-! ## The list, the skiplist and the hash table -/

/-- A value in `[1, 2 ^ 62)`. -/
def Plain (v : ℕ) : Prop := 0 < v ∧ v < 2 ^ 62

instance (v : ℕ) : Decidable (Plain v) := inferInstanceAs (Decidable (_ ∧ _))

/-- Small keys, plain values, and expectations that are plain or special. -/
def Request.InRange : Request → Prop
  | .get key => Small key
  | .set key new | .add key new | .replace key new => Small key ∧ Plain new
  | .cas key expectation new => Small key ∧ Plain new ∧ (expectation = expectDoesNotExist
      ∨ expectation = expectExists ∨ expectation = expectWhatever ∨ Plain expectation)
  | .remove key => Small key
  | .count => True

instance (r : Request) : Decidable r.InRange := by
  unfold Request.InRange
  split <;> infer_instance

/-- What a function of `map.h` passes on to the hash table. -/
def Request.table : Request → Hashtable.Call
  | .get key => .get key
  | .set key new => .cas key expectWhatever new
  | .add key new => .cas key expectDoesNotExist new
  | .cas key expectation new => .cas key expectation new
  | .replace key new => .cas key expectExists new
  | .remove key => .remove key
  | .count => .count

/-- The three implementations return the same results. -/
def Agree (hash : ℕ → ℕ) (rs : List (Request × ℕ)) : Prop :=
  ∃ results fuel, ∀ fuel' ≥ fuel,
    (calls listExec fuel' LinkedList.init.shared rs).map (·.1) = some results
    ∧ (calls skipExec fuel' SkipList.init.shared rs).map (·.1) = some results
    ∧ Hashtable.calls (.integer hash) fuel' Hashtable.htAlloc (rs.map fun r => r.1.table)
      = some results

section Table

variable {m m' : List (ℕ × ℕ)} (hash : ℕ → ℕ)

theorem mapGet_perm (hm : Sorted natural m) (hp : m.Perm m') (key : ℕ) :
    Hashtable.mapGet (.integer hash) m' key = get m key :=
  (get_perm hm.nodup hp key).symm

theorem Sorted.callBy {met : ℕ → Option ℕ → Prop} [∀ e old, Decidable (met e old)]
    (hm : Sorted natural m) (c : Call) : Sorted natural (callBy met natural m c).2 := by
  cases c with
  | cas key expectation new =>
    simp only [Map.callBy]
    split_ifs
    · exact hm.put
    · exact hm
  | remove key => exact hm.erase
  | get key => exact hm
  | count => exact hm
  | minKey => exact hm

/-- A request on two orders of one map. -/
theorem mapCall_perm (hm : Sorted natural m) (hp : m.Perm m') (r : Request) :
    (Hashtable.mapCall (.integer hash) m' r.table).1 = (call natural m r.call).1
    ∧ (call natural m r.call).2.Perm (Hashtable.mapCall (.integer hash) m' r.table).2 := by
  have hget := mapGet_perm hash hm hp
  have hcas : ∀ key expectation new,
      (Hashtable.mapCall (.integer hash) m' (.cas key expectation new)).1
        = (call natural m (.cas key expectation new)).1
      ∧ (call natural m (.cas key expectation new)).2.Perm
        (Hashtable.mapCall (.integer hash) m' (.cas key expectation new)).2 := by
    intro key expectation new
    simp only [Hashtable.mapCall, callBy, hget, true_and]
    have hiff : Hashtable.Expected expectation (get m key) ↔ Met expectation (get m key) := Iff.rfl
    by_cases hmet : Met expectation (get m key)
    · rw [if_pos hmet, if_pos (hiff.mpr hmet)]
      exact (put_perm natural m key new).trans ((erase_perm hp).cons _)
    · rw [if_neg hmet, if_neg fun h => hmet (hiff.mp h)]
      exact hp
  cases r with
  | get key => exact ⟨congrArg (·.getD doesNotExist) (hget key), hp⟩
  | set key new => exact hcas key expectWhatever new
  | add key new => exact hcas key expectDoesNotExist new
  | cas key expectation new => exact hcas key expectation new
  | replace key new => exact hcas key expectExists new
  | remove key => exact ⟨congrArg (·.getD doesNotExist) (hget key), erase_perm hp⟩
  | count => exact ⟨hp.length_eq.symm, hp⟩

/-- The hash table on a sequence of requests. -/
theorem mapCalls_eq (rs : List (Request × ℕ)) : ∀ {m m' : List (ℕ × ℕ)}, Sorted natural m →
    m.Perm m' → Hashtable.mapCalls (.integer hash) m' (rs.map fun r => r.1.table)
      = (specCalls (mapExec natural) m rs).1 := by
  induction rs with
  | nil => exact fun _ _ => rfl
  | cons r rs ih =>
    intro m m' hm hp
    obtain ⟨hresult, hperm⟩ := mapCall_perm hash hm hp r.1
    simp only [List.map_cons, Hashtable.mapCalls, specCalls, hresult]
    rw [ih (Sorted.callBy hm r.1.call) hperm]
    rfl

theorem table_valid {r : Request} (hr : r.InRange) : r.table.Valid := by
  have hkey : ∀ key, Small key → key ≠ 0 ∧ key < 2 ^ 64 := by
    rintro key ⟨h0, hlt⟩
    omega
  have hval : ∀ v, Plain v → Hashtable.Legal v := by
    rintro v ⟨h0, hlt⟩
    have htomb : Hashtable.tombstone = 2 ^ 63 - 1 := by decide
    refine ⟨h0.ne', ?_, ?_⟩
    · unfold Hashtable.IsTagged
      omega
    · omega
  cases r with
  | get key => exact hkey key hr
  | set key new => exact ⟨hkey key hr.1, hval new hr.2, Or.inr (Or.inr (Or.inl rfl))⟩
  | add key new => exact ⟨hkey key hr.1, hval new hr.2, Or.inl rfl⟩
  | cas key expectation new =>
    refine ⟨hkey key hr.1, hval new hr.2.1, ?_⟩
    rcases hr.2.2 with h | h | h | h
    · exact Or.inl h
    · exact Or.inr (Or.inl h)
    · exact Or.inr (Or.inr (Or.inl h))
    · exact Or.inr (Or.inr (Or.inr (hval expectation h)))
  | replace key new => exact ⟨hkey key hr.1, hval new hr.2, Or.inr (Or.inl rfl)⟩
  | remove key => exact hkey key hr
  | count => trivial

end Table

section Agreement

variable {rs : List (Request × ℕ)} {r : Request}

theorem Request.InRange.small (hr : r.InRange) : ∀ key ∈ r.call.key?, Small key := by
  intro key hkey
  cases r with
  | get k => exact Option.some.inj hkey ▸ hr
  | set k new => exact Option.some.inj hkey ▸ hr.1
  | add k new => exact Option.some.inj hkey ▸ hr.1
  | cas k expectation new => exact Option.some.inj hkey ▸ hr.1
  | replace k new => exact Option.some.inj hkey ▸ hr.1
  | remove k => exact Option.some.inj hkey ▸ hr
  | count => cases hkey

theorem Request.InRange.asserted (hr : r.InRange) : r.call.Asserted := by
  have hval : ∀ v, Plain v → 0 < v ∧ v < 2 ^ 63 := by
    rintro v ⟨h0, hlt⟩
    omega
  cases r with
  | set k new => exact hval new hr.2
  | add k new => exact hval new hr.2
  | cas k expectation new => exact hval new hr.2.1
  | replace k new => exact hval new hr.2
  | get k => trivial
  | remove k => trivial
  | count => trivial

/-- The list and the skiplist answer as `looseCall` does, and the hash table as `call`. -/
theorem agree_iff_spec (hash : ℕ → ℕ) (hrs : ∀ r ∈ rs, r.1.InRange ∧ r.2 < 32) : Agree hash rs ↔
    (specCalls (looseExec natural) [] rs).1 = (specCalls (mapExec natural) [] rs).1 := by
  have hmeets : Meets (looseExec natural)
      (fun m r => Proper natural Small m ∧ r.1.InRange ∧ r.2 < 32) [] rs :=
    (meets_of_forall hrs []).invariant
      (fun m r hm hr => hm.callBy hr.1.asserted hr.1.small) proper_nil
  obtain ⟨fuel₁, h, hlist, -⟩ := list_runs
    (hmeets.mono fun m r hr => ⟨hr.2.1.asserted, hr.1.ordered hr.2.1.small⟩)
  obtain ⟨fuel₂, g, hskip, -⟩ := skip_runs
    (hmeets.mono fun m r hr => ⟨hr.2.2, hr.2.1.asserted, hr.1.ordered hr.2.1.small⟩)
  have hlawful : (Hashtable.KeyType.integer hash).Lawful := trivial
  obtain ⟨fuel₃, htable⟩ := Hashtable.calls_spec hlawful
    (rs.map fun r => r.1.table) (Hashtable.htAlloc_refines (.integer hash)) (by
      intro c hc
      obtain ⟨r, hr, rfl⟩ := List.mem_map.mp hc
      exact table_valid (hrs r hr).1)
  rw [mapCalls_eq hash rs List.Pairwise.nil (List.Perm.refl [])] at htable
  constructor
  · rintro ⟨results, fuel, hfuel⟩
    obtain ⟨h₁, -, h₃⟩ := hfuel (max fuel (max fuel₁ fuel₃)) (le_max_left _ _)
    rw [hlist _ (by omega)] at h₁
    rw [htable _ (by omega)] at h₃
    exact (Option.some.inj h₁).trans (Option.some.inj h₃).symm
  · intro heq
    refine ⟨_, max fuel₁ (max fuel₂ fuel₃), fun fuel' hf => ⟨?_, ?_, htable fuel' (by omega)⟩⟩
    · rw [hlist fuel' (by omega), ← heq]
      rfl
    · rw [hskip fuel' (by omega), ← heq]
      rfl

/-- The requests whose exact expectations are met. -/
abbrev ExactMet (m : List (ℕ × ℕ)) (r : Request × ℕ) : Prop := r.1.call.ExactMet m

/-- While exact expectations are met the lists answer as the map does. -/
theorem looseExec_of_exactMet (hrs : ∀ r ∈ rs, r.1.InRange ∧ r.2 < 32)
    (hmet : Meets (mapExec natural) ExactMet [] rs) :
    specCalls (looseExec natural) [] rs = specCalls (mapExec natural) [] rs := by
  have hmeets : Meets (mapExec natural)
      (fun m r => Proper natural Small m ∧ (r.1.InRange ∧ r.2 < 32) ∧ ExactMet m r) [] rs :=
    ((meets_of_forall hrs []).and hmet).invariant
      (fun m r hm hr => hm.callBy hr.1.1.asserted hr.1.1.small) proper_nil
  exact (hmeets.congr fun m r hr => looseCall_eq_call hr.1 hr.2.2).1

/-- The map after a sequence of requests. -/
theorem proper_specCalls (hrs : ∀ r ∈ rs, r.1.InRange ∧ r.2 < 32) {m : List (ℕ × ℕ)}
    (hm : Proper natural Small m) : Proper natural Small (specCalls (mapExec natural) m rs).2 := by
  induction rs generalizing m with
  | nil => exact hm
  | cons r rs ih =>
    have hr := (hrs r List.mem_cons_self).1
    exact ih (fun r' hr' => hrs r' (List.mem_cons_of_mem r hr')) (hm.callBy hr.asserted hr.small)

/-- A `map_cas` that the lists answer wrongly shows when the key is read. -/
theorem exactMet_of_reads {m : List (ℕ × ℕ)} (hm : Proper natural Small m) (r : Request × ℕ)
    (hreads : ∀ key, Small key → (specCalls (looseExec natural) m [r, (.get key, 0)]).1
      = (specCalls (mapExec natural) m [r, (.get key, 0)]).1)
    (hr : r.1.InRange) : ExactMet m r := by
  obtain ⟨r, z⟩ := r
  cases r with
  | cas key expectation new =>
    rintro ⟨hnone, hexists, hwhatever⟩ v hget
    by_contra hne
    obtain ⟨hexact, hnew⟩ := not_or.mp hne
    have hmet : ¬ Met expectation (some v) := by
      rintro (h | ⟨h, -⟩ | ⟨-, h⟩ | h)
      · exact hwhatever h
      · exact hexists h
      · cases h
      · exact hexact (Option.some.inj h)
    have hread := hreads key hr.1
    have hput : get (put natural m key new) key = some new :=
      (get_eq_some_iff hm.sorted.put.nodup).mpr (by simp [put])
    have hget' : SortedMap.get m key = some v := hget
    simp only [specCalls, looseExec, mapExec, callBy, Request.call, hget', if_neg hmet,
      if_pos (looselyMet_some.mpr hnone), hput, Option.getD_some, List.cons.injEq, true_and,
      and_true] at hread
    exact hnew hread.symm
  | get key => trivial
  | set key new => exact Call.exactMet_of_special rfl
  | add key new => exact Call.exactMet_of_special rfl
  | replace key new => exact Call.exactMet_of_special rfl
  | remove key => trivial
  | count => trivial

/-- **The implementations agree**, whatever key is read at whichever point of the sequence,
exactly when no `map_cas` has an exact expectation for a key that has another value, unless
the new value is there already. -/
theorem maps_agree_iff (hash : ℕ → ℕ) (rs : List (Request × ℕ))
    (hrs : ∀ r ∈ rs, r.1.InRange ∧ r.2 < 32) :
    (Agree hash rs ∧ ∀ front, front <+: rs → ∀ key, Small key → Agree hash (front ++ [(.get key, 0)]))
      ↔ Meets (mapExec natural) ExactMet [] rs := by
  have hread : ∀ front, front <+: rs → ∀ key, Small key →
      ∀ r ∈ front ++ [((.get key, 0) : Request × ℕ)], r.1.InRange ∧ r.2 < 32 := by
    intro front hfront key hkey r hr
    rcases List.mem_append.mp hr with hr | hr
    · exact hrs r (hfront.subset hr)
    · obtain rfl := List.mem_singleton.mp hr
      exact ⟨hkey, Nat.zero_lt_succ 31⟩
  constructor
  · rintro ⟨-, hagree⟩
    have hspec : ∀ front, front <+: rs → ∀ key, Small key →
        (specCalls (looseExec natural) [] (front ++ [(.get key, 0)])).1
          = (specCalls (mapExec natural) [] (front ++ [(.get key, 0)])).1 := fun front hf key hk =>
      (agree_iff_spec hash (hread front hf key hk)).mp (hagree front hf key hk)
    clear hagree hread
    induction rs using List.reverseRecOn with
    | nil => trivial
    | append_singleton rs r ih =>
      have hrs' : ∀ r ∈ rs, r.1.InRange ∧ r.2 < 32 :=
        fun r' hr' => hrs r' (List.mem_append_left _ hr')
      have hold := ih hrs' fun front hf => hspec front (hf.trans (List.prefix_append rs [r]))
      refine (meets_append rs [r]).mpr ⟨hold, ?_, trivial⟩
      -- the lists and the map are the same up to the last request
      have heq := looseExec_of_exactMet hrs' hold
      refine exactMet_of_reads (proper_specCalls hrs' proper_nil) r (fun key hkey => ?_)
        (hrs r (by simp)).1
      have hlast := hspec (rs ++ [r]) (List.prefix_rfl) key hkey
      have happ : ∀ spec : List (ℕ × ℕ) → Request × ℕ → ℕ × List (ℕ × ℕ), _ := fun spec =>
        @specCalls_append _ _ spec [] rs [r, (.get key, 0)]
      rw [List.append_assoc] at hlast
      rw [List.singleton_append, happ, happ, heq] at hlast
      exact List.append_cancel_left hlast
  · intro hmet
    refine ⟨(agree_iff_spec hash hrs).mpr (congrArg Prod.fst (looseExec_of_exactMet hrs hmet)), ?_⟩
    intro front hfront key hkey
    have hrs' := hread front hfront key hkey
    refine (agree_iff_spec hash hrs').mpr (congrArg Prod.fst (looseExec_of_exactMet hrs' ?_))
    obtain ⟨back, rfl⟩ := hfront
    exact (meets_append _ _).mpr ⟨((meets_append _ _).mp hmet).1, trivial, trivial⟩

/-- Requests of every kind, with exact expectations that are met or meet no key. -/
def mixed : List (Request × ℕ) :=
  [(.add 5 7, 3), (.cas 5 7 9, 0), (.cas 6 3 4, 1), (.replace 5 10, 0), (.set 6 11, 7),
    (.count, 0), (.remove 5, 0), (.get 5, 0), (.count, 0)]

/-- The hypothesis can hold, and the condition too. -/
theorem maps_agree_iff_mixed : (∀ r ∈ mixed, r.1.InRange ∧ r.2 < 32)
    ∧ Meets (mapExec natural) ExactMet [] mixed
    ∧ (Agree (fun key => key) mixed ∧ ∀ front, front <+: mixed → ∀ key, Small key →
      Agree (fun key => key) (front ++ [(.get key, 0)])) := by
  have hrs : ∀ r ∈ mixed, r.1.InRange ∧ r.2 < 32 := by decide +kernel
  have hmet : Meets (mapExec natural) ExactMet [] mixed := by decide +kernel
  exact ⟨hrs, hmet, (maps_agree_iff (fun key => key) mixed hrs).mpr hmet⟩

/-- A `map_cas` that expects `3` where `7` is. -/
def mistaken : List (Request × ℕ) := [(.set 5 7, 0), (.cas 5 3 9, 0), (.get 5, 0)]

/-- The lists store the new value, and the hash table does not. -/
theorem exact_expectation_ignored : (∀ r ∈ mistaken, r.1.InRange ∧ r.2 < 32)
    ∧ ¬ Agree (fun key => key) mistaken
    ∧ (calls listExec 60 LinkedList.init.shared mistaken).map (·.1) = some [0, 7, 9]
    ∧ (calls skipExec 60 SkipList.init.shared mistaken).map (·.1) = some [0, 7, 9]
    ∧ Hashtable.calls (.integer fun key => key) 60 Hashtable.htAlloc
        (mistaken.map fun r => r.1.table) = some [0, 7, 7] := by
  have hrs : ∀ r ∈ mistaken, r.1.InRange ∧ r.2 < 32 := by decide +kernel
  refine ⟨hrs, ?_, by decide +kernel, by decide +kernel, by decide +kernel⟩
  rw [agree_iff_spec (fun key => key) hrs]
  decide +kernel

end Agreement

end Map
