/-
# The hash table is a finite map

For a single thread every call on the hash table returns, and returns what it would on a
finite map, whatever the hash function is, however often the table grows and however far
the copy has come.

* `Refines` — the table stands for a finite map;
* `htiCas_here`, `casLoop_spec`, `htiGet_spec` — the calls, from table to table;
* `hashtable_refines_map` — whole sequences of calls.
-/
import Ssr.HashtableCopy

open Map Migration

namespace Hashtable

/-! ## The finite map -/

section FiniteMap

variable {kt : KeyType} {m : List (ℕ × ℕ)} {k key v : ℕ}

/-- A finite map has every key once; keys are non-zero words. -/
structure WellKeyed (kt : KeyType) (m : List (ℕ × ℕ)) : Prop where
  pairwise : m.Pairwise fun p q => ¬ kt.Same p.1 q.1
  bounds : ∀ p ∈ m, p.1 ≠ 0 ∧ p.1 < 2 ^ 64

/-- The map after a removal. -/
theorem mapGet_erase (hkt : kt.Lawful) (m : List (ℕ × ℕ)) (key k : ℕ) :
    mapGet kt (mapErase kt m key) k = if kt.Same key k then none else mapGet kt m k := by
  unfold mapGet mapErase
  rw [List.find?_filter]
  split_ifs with hs
  · rw [Option.map_eq_none_iff, List.find?_eq_none]
    intro p _ hp
    simp only [decide_not, Bool.not_eq_true', decide_eq_false_iff_not, decide_eq_true_eq] at hp
    exact hp.1 (hp.2.trans hkt (hs.symm hkt))
  · congr 2
    funext p
    by_cases hp : kt.Same p.1 k
    · have hne : ¬ kt.Same p.1 key := fun h => hs ((h.symm hkt).trans hkt hp)
      simp [hp, hne]
    · simp [hp]

/-- The map after a store. -/
theorem mapGet_set (hkt : kt.Lawful) (m : List (ℕ × ℕ)) (key v k : ℕ) :
    mapGet kt (mapSet kt m key v) k = if kt.Same key k then some v else mapGet kt m k := by
  by_cases hs : kt.Same key k
  · unfold mapGet mapSet
    rw [List.find?_cons_of_pos (by simpa using hs), if_pos hs]
    rfl
  · have h : mapGet kt (mapSet kt m key v) k = mapGet kt (mapErase kt m key) k := by
      unfold mapGet mapSet
      rw [List.find?_cons_of_neg (by simpa using hs)]
    rw [h, mapGet_erase hkt, if_neg hs, if_neg hs]

/-- A key that is present is there once. -/
theorem mapErase_length (hkt : kt.Lawful) (hp : m.Pairwise fun p q => ¬ kt.Same p.1 q.1) (key : ℕ) :
    (mapErase kt m key).length + (mapGet kt m key).isSome.toNat = m.length := by
  induction m with
  | nil => rfl
  | cons p m ih =>
    obtain ⟨hhead, htail⟩ := List.pairwise_cons.mp hp
    unfold mapErase mapGet at ih ⊢
    by_cases hs : kt.Same p.1 key
    · have hrest : m.filter (fun q => decide ¬ kt.Same q.1 key) = m := by
        refine List.filter_eq_self.mpr fun q hq => decide_eq_true fun h => ?_
        exact hhead q hq (hs.trans hkt (h.symm hkt))
      rw [List.filter_cons_of_neg (by simpa using hs), List.find?_cons_of_pos (by simpa using hs),
        hrest]
      rfl
    · rw [List.filter_cons_of_pos (by simpa using hs), List.find?_cons_of_neg (by simpa using hs)]
      have := ih htail
      simp only [List.length_cons]
      omega

/-- The keys stay different. -/
theorem WellKeyed.erase (hm : WellKeyed kt m) (key : ℕ) : WellKeyed kt (mapErase kt m key) :=
  ⟨hm.pairwise.sublist List.filter_sublist, fun p hp => hm.bounds p (List.mem_of_mem_filter hp)⟩

/-- They do so after a store. -/
theorem WellKeyed.set (hkt : kt.Lawful) (hm : WellKeyed kt m) (hk : key ≠ 0 ∧ key < 2 ^ 64)
    (v : ℕ) : WellKeyed kt (mapSet kt m key v) := by
  have he := hm.erase key
  refine ⟨List.pairwise_cons.mpr ⟨fun p hp hs => ?_, he.pairwise⟩,
    List.forall_mem_cons.mpr ⟨hk, he.bounds⟩⟩
  have hnot : ¬ kt.Same p.1 key := of_decide_eq_true (List.mem_filter.mp hp).2
  exact hnot (hs.symm hkt)

/-- There are fewer keys than words. -/
theorem WellKeyed.length_lt (hkt : kt.Lawful) (hm : WellKeyed kt m) : m.length < 2 ^ 64 := by
  have hnodup : (m.map (·.1)).Nodup := by
    refine List.Pairwise.map _ (fun p q hpq heq => hpq ?_) hm.pairwise
    rw [heq]
    exact KeyType.Same.refl hkt _
  have hsub : (m.map (·.1)).toFinset ⊆ Finset.Ico 1 (2 ^ 64) := by
    intro k hk
    obtain ⟨p, hp, rfl⟩ := List.mem_map.mp (List.mem_toFinset.mp hk)
    have hb := hm.bounds p hp
    exact Finset.mem_Ico.mpr ⟨Nat.pos_of_ne_zero hb.1, hb.2⟩
  have hcard := Finset.card_le_card hsub
  rw [List.toFinset_card_of_nodup hnodup, List.length_map, Nat.card_Ico] at hcard
  omega

end FiniteMap

/-! ## The calls -/

/-- **The table stands for a finite map**, which the tables from `b` on hold. -/
structure Refines (kt : KeyType) (s : Ht) (b : ℕ) (m : List (ℕ × ℕ)) : Prop where
  inv : Inv kt s b
  value_eq : ∀ k, value (s.cell kt k) b s.len = mapGet kt m k
  books : Books s b m.length (fun _ => 0) none
  keyed : WellKeyed kt m

section Calls

variable {kt : KeyType} {s s' : Ht} {b i e fuel key expected new v : ℕ} {m m' : List (ℕ × ℕ)}

/-- A change that keeps the map. -/
theorem Refines.of_kept (h : Refines kt s b m) (hi : Inv kt s' b) (hk : Kept kt b s s')
    (hb : Books s' b m.length (fun _ => 0) none) : Refines kt s' b m :=
  ⟨hi, fun k => (hk k).trans (h.value_eq k), hb, h.keyed⟩

/-- Another list for the same map. -/
theorem Refines.congr (h : Refines kt s b m) (hk : WellKeyed kt m') (hl : m'.length = m.length)
    (hg : ∀ k, mapGet kt m' k = mapGet kt m k) : Refines kt s b m' :=
  ⟨h.inv, fun k => (h.value_eq k).trans (hg k).symm, by rw [hl]; exact h.books, hk⟩

/-- What `ht_cas` and `ht_remove` make of the map. -/
def mapCas (kt : KeyType) (m : List (ℕ × ℕ)) (key expected new : ℕ) : List (ℕ × ℕ) :=
  if Expected expected (mapGet kt m key) then
    if new = doesNotExist then mapErase kt m key else mapSet kt m key new
  else m

/-- The expectations that callers have. -/
def Expectation (expected : ℕ) : Prop :=
  expected = expectDoesNotExist ∨ expected = expectExists ∨ expected = expectWhatever
    ∨ Legal expected

/-- The test of `hti_cas`. -/
theorem expected_iff (hexp : Expectation expected) (hv : Stored v) (ht : ¬ IsTagged v) :
    ¬ (expected ≠ expectWhatever ∧ expected ≠ v
      ∧ expected ≠ if v ≠ tombstone ∧ v ≠ doesNotExist then expectExists else expectDoesNotExist)
      ↔ Expected expected (meaning v) := by
  have hnone : expectDoesNotExist = doesNotExist := rfl
  unfold Expected
  rcases hv with rfl | rfl | hl | hd | ⟨u, _, rfl⟩
  · -- the key has no value
    rw [if_neg fun h => h.2 rfl, show meaning doesNotExist = none from rfl]
    rw [not_and_or, not_and_or, not_not, not_not, not_not, hnone]
    simp
  · have htomb : expected ≠ tombstone := by
      rintro rfl
      rcases hexp with h | h | h | h
      · exact absurd h (by decide)
      · exact absurd h (by decide)
      · exact absurd h (by decide)
      · exact h.2.2 rfl
    rw [if_neg fun h => h.1 rfl, show meaning tombstone = none from rfl]
    rw [not_and_or, not_and_or, not_not, not_not, not_not]
    simp [htomb]
  · have hm : meaning v = some v := if_neg (not_or.mpr ⟨hl.1, hl.2.2⟩)
    rw [if_pos ⟨hl.2.2, hl.1⟩, hm, not_and_or, not_and_or, not_not, not_not, not_not]
    simp only [ne_eq, reduceCtorEq, not_false_eq_true, and_true, and_false, false_or,
      Option.some.injEq]
    tauto
  · exact absurd hd.isTagged ht
  · exact absurd (isTagged_tagValue u) ht

/-- The state without changes for the readers of other counters. -/
structure Frame (s s' : Ht) : Prop where
  hti : s'.hti = s.hti
  len : s.len ≤ s'.len
  scale : ∀ j, j < s.len → (s'.tables j).scale = (s.tables j).scale
  copied : ∀ j, j < s.len → (s'.tables j).numEntriesCopied = (s.tables j).numEntriesCopied

/-- No change. -/
theorem Frame.refl (s : Ht) : Frame s s := ⟨rfl, le_rfl, fun _ _ => rfl, fun _ _ => rfl⟩

/-- One change after the other. -/
theorem Frame.trans {s'' : Ht} (h : Frame s s') (h' : Frame s' s'') : Frame s s'' := by
  have hlen := h.len
  exact ⟨h'.hti.trans h.hti, hlen.trans h'.len,
    fun j hj => (h'.scale j (by omega)).trans (h.scale j hj),
    fun j hj => (h'.copied j (by omega)).trans (h.copied j hj)⟩

/-- An open entry is counted when it has a value. -/
theorem occupied_of_stored (hv : Stored v) (ht : ¬ IsTagged v) :
    occupied v = decide (v ≠ tombstone ∧ v ≠ doesNotExist) := by
  rcases hv with rfl | rfl | hl | hd | ⟨u, _, rfl⟩
  · rfl
  · rfl
  · rw [occupied_of_legal hl]
    exact (decide_eq_true ⟨hl.2.2, hl.1⟩).symm
  · exact absurd hd.isTagged ht
  · exact absurd (isTagged_tagValue u) ht

/-- The number of values after a store of `hti_cas`, which then adjusts the counter. -/
theorem Books.write {n n' : ℕ} (hb : Books s b n (fun _ => 0) none) (hbi : b ≤ i) (hi : i < s.len)
    (he : e < 2 ^ (s.tables i).scale) (ht : ¬ IsTagged (s.val i e)) (ht' : ¬ IsTagged v)
    (hn : n' + (occupied (s.val i e)).toNat = n + (occupied v).toNat)
    (hent : SameEntries (s.setVal i e v) s')
    (hcount : (s'.tables i).count = census occupied (s.setVal i e v) i)
    (hother : ∀ j, j ≠ i → (s'.tables j).count = (s.tables j).count)
    (hcopied : ∀ j, (s'.tables j).numEntriesCopied = (s.tables j).numEntriesCopied)
    (hscan : ∀ j, (s'.tables j).copyScan = (s.tables j).copyScan) :
    Books s' b n' (fun _ => 0) none := by
  have hdead : dead v = dead (s.val i e) := by
    unfold dead
    rw [decide_eq_false fun h : Dead v => ht' h.isTagged,
      decide_eq_false fun h : Dead (s.val i e) => ht h.isTagged]
  have hlen : s'.len = s.len := hent.len
  refine ⟨fun j hbj hj => ?_, ?_, fun j hbj hj => ?_, fun j x hbj hj htag => ?_, fun j hj => ?_⟩
  · rw [hent.census_eq]
    by_cases hji : j = i
    · rw [hji]
      exact hcount
    · rw [hother j hji, census_setVal_of_ne _ hji]
      exact hb.count j hbj (by omega)
  · rw [hent.total_eq]
    have h := total_setVal (v := v) occupied hbi hi he
    have hst := hb.stored
    omega
  · rw [hent.census_eq, hcopied]
    have hc := hb.copied j hbj (by omega)
    by_cases hji : j = i
    · subst hji
      have h := census_setVal (v := v) dead he
      rw [hdead] at h
      omega
    · rw [census_setVal_of_ne _ hji]
      exact hc
  · rw [hent.val_eq] at htag ⊢
    by_cases h : j = i ∧ x = e
    · obtain ⟨rfl, rfl⟩ := h
      rw [Ht.setVal_val_self] at htag
      exact absurd htag ht'
    · rw [Ht.setVal_val_of_ne v h] at htag ⊢
      exact hb.quiet j x hbj (by omega) htag
  · rw [hscan]
    exact hb.scan j (by omega)

/-- The store of `hti_cas` with the adjustment of the counter. -/
def Ht.store (s : Ht) (i e new : ℕ) (oldExisted : Prop) [Decidable oldExisted] : Ht :=
  let s := s.setVal i e (if new = doesNotExist then tombstone else new)
  if oldExisted ∧ new = doesNotExist then s.addCount i (2 ^ 64 - 1)
  else if ¬ oldExisted ∧ new ≠ doesNotExist then s.addCount i 1
  else s

/-- What `hti_cas` stores, but for the counter. -/
theorem store_entries (s : Ht) (i e new : ℕ) (p : Prop) [Decidable p] :
    SameEntries (s.setVal i e (if new = doesNotExist then tombstone else new))
      (s.store i e new p) := by
  unfold Ht.store
  simp only
  split_ifs <;> first
    | exact addCount_entries _ _ _
    | exact ⟨rfl, fun _ => rfl, fun _ => rfl, fun _ => rfl⟩

/-- What it does to the counters. -/
theorem store_counters (s : Ht) (i e new j : ℕ) (p : Prop) [Decidable p] :
    ((s.store i e new p).tables j).numEntriesCopied = (s.tables j).numEntriesCopied
      ∧ ((s.store i e new p).tables j).copyScan = (s.tables j).copyScan
      ∧ (j ≠ i → ((s.store i e new p).tables j).count = (s.tables j).count)
      ∧ (s.store i e new p).hti = s.hti := by
  have h := setVal_counters s i e (if new = doesNotExist then tombstone else new) j
  unfold Ht.store
  simp only
  split_ifs at h ⊢ <;>
    first
    | exact ⟨(addCount_copied _ _ _ _).trans h.2.1, (addCount_scan _ _ _ _).trans h.2.2,
        fun hj => (addCount_count_of_ne _ _ hj).trans h.1, rfl⟩
    | exact ⟨h.2.1, h.2.2, fun _ => h.1, rfl⟩

/-- The word that `hti_cas` stores. -/
theorem stored_word (hnew : new = doesNotExist ∨ Legal new) :
    ((if new = doesNotExist then tombstone else new) = tombstone
        ∨ Legal (if new = doesNotExist then tombstone else new))
      ∧ occupied (if new = doesNotExist then tombstone else new) = decide (new ≠ doesNotExist)
      ∧ ¬ IsTagged (if new = doesNotExist then tombstone else new) := by
  rcases hnew with rfl | hl
  · exact ⟨Or.inl rfl, rfl, by decide⟩
  · rw [if_neg hl.1]
    exact ⟨Or.inr hl, (occupied_of_legal hl).trans (decide_eq_true hl.1).symm, hl.2.1⟩

/-- The counter follows the number of values, as long as both fit a word. -/
theorem store_count (n' : ℕ) (hst : Stored (s.val i e)) (ht : ¬ IsTagged (s.val i e))
    (hnew : new = doesNotExist ∨ Legal new) (he : e < 2 ^ (s.tables i).scale)
    (hc : (s.tables i).count = census occupied s i) (hle : census occupied s i ≤ n')
    (hle' : census occupied
      (s.setVal i e (if new = doesNotExist then tombstone else new)) i ≤ n')
    (hn : n' < 2 ^ 64) :
    ((s.store i e new (s.val i e ≠ tombstone ∧ s.val i e ≠ doesNotExist)).tables i).count
      = census occupied (s.setVal i e (if new = doesNotExist then tombstone else new)) i := by
  have hcen := census_setVal (v := if new = doesNotExist then tombstone else new) occupied he
  rw [(stored_word hnew).2.1, occupied_of_stored hst ht] at hcen
  have hset := (setVal_counters s i e (if new = doesNotExist then tombstone else new) i).1
  unfold Ht.store
  simp only
  by_cases hold : s.val i e ≠ tombstone ∧ s.val i e ≠ doesNotExist
  · by_cases hz : new = doesNotExist
    · rw [if_pos ⟨hold, hz⟩, addCount_count_self, hset, hc]
      rw [decide_eq_true hold, decide_eq_false (not_not.mpr hz)] at hcen
      simp only [Bool.toNat_true, Bool.toNat_false] at hcen
      omega
    · rw [if_neg fun h => hz h.2, if_neg fun h => h.1 hold, hset, hc]
      rw [decide_eq_true hold, decide_eq_true hz] at hcen
      omega
  · by_cases hz : new = doesNotExist
    · rw [if_neg fun h => hold h.1, if_neg fun h => h.2 hz, hset, hc]
      rw [decide_eq_false hold, decide_eq_false (not_not.mpr hz)] at hcen
      omega
    · rw [if_neg fun h => hold h.1, if_pos ⟨hold, hz⟩, addCount_count_self, hset, hc]
      rw [decide_eq_false hold, decide_eq_true hz] at hcen
      simp only [Bool.toNat_true, Bool.toNat_false] at hcen
      omega

/-- Erasing a key that is not there. -/
theorem mapErase_of_none (h : mapGet kt m key = none) : mapErase kt m key = m := by
  unfold mapGet at h
  rw [Option.map_eq_none_iff, List.find?_eq_none] at h
  exact List.filter_eq_self.mpr fun p hp => decide_eq_true fun hs => h p hp (decide_eq_true hs)

/-- An open entry that is counted has a value. -/
theorem isSome_meaning (hst : Stored v) (ht : ¬ IsTagged v) :
    (meaning v).isSome = occupied v := by
  rw [occupied_of_stored hst ht]
  unfold meaning
  by_cases h : v = doesNotExist ∨ v = tombstone
  · rw [if_pos h]
    exact (decide_eq_false fun h' => h.elim h'.2 h'.1).symm
  · rw [if_neg h]
    exact (decide_eq_true ⟨fun h' => h (Or.inr h'), fun h' => h (Or.inl h')⟩).symm

/-- **A store of `hti_cas`** does to the map what the call asks for. -/
theorem Refines.store (hkt : kt.Lawful) (h : Refines kt s b m) (hbi : b ≤ i) (hi : i < s.len)
    (he : e < 2 ^ (s.tables i).scale) (hkey : s.key i e ≠ doesNotExist)
    (ht : ¬ IsTagged (s.val i e)) (hnew : new = doesNotExist ∨ Legal new)
    (hsame : kt.Same (kt.keyOf (s.key i e)) key) (hk : key ≠ 0 ∧ key < 2 ^ 64)
    (hpass : ∀ x, b ≤ x → x < i → (s.cell kt (kt.keyOf (s.key i e)) x).Passed) :
    Refines kt (s.store i e new (s.val i e ≠ tombstone ∧ s.val i e ≠ doesNotExist)) b
      (if new = doesNotExist then mapErase kt m key else mapSet kt m key new) := by
  have hst := h.inv.stored i e hi
  obtain ⟨hword, hocc, htag⟩ := stored_word hnew
  obtain ⟨hinv, hhere, hothers⟩ := h.inv.write hkt hi he hkey ht hword hpass
  have hent := store_entries s i e new (s.val i e ≠ tombstone ∧ s.val i e ≠ doesNotExist)
  have hcnt := fun j => store_counters s i e new j (s.val i e ≠ tombstone ∧ s.val i e ≠ doesNotExist)
  obtain ⟨hinv', hkept⟩ := hinv.sameEntries hent
  have hold : mapGet kt m key = meaning (s.val i e) :=
    (h.value_eq key).symm.trans (hhere key hsame).1
  -- the number of keys
  have hlen := mapErase_length hkt h.keyed.pairwise key
  rw [hold, isSome_meaning hst ht] at hlen
  have hkeyed : WellKeyed kt
      (if new = doesNotExist then mapErase kt m key else mapSet kt m key new) := by
    split_ifs
    · exact h.keyed.erase key
    · exact h.keyed.set hkt hk new
  have hn : (if new = doesNotExist then mapErase kt m key else mapSet kt m key new).length
      + (occupied (s.val i e)).toNat = m.length
        + (occupied (if new = doesNotExist then tombstone else new)).toNat := by
    rw [hocc]
    by_cases hz : new = doesNotExist
    · rw [if_pos hz, decide_eq_false (not_not.mpr hz)]
      simpa using hlen
    · rw [if_neg hz, decide_eq_true hz]
      simp only [mapSet, List.length_cons, Bool.toNat_true]
      omega
  have htotal := total_setVal (v := if new = doesNotExist then tombstone else new) occupied
    hbi hi he
  have hstored := h.books.stored
  have hle := census_le_total (s := s) occupied hbi hi
  have hle' := census_le_total (b := b) (i := i)
    (s := s.setVal i e (if new = doesNotExist then tombstone else new)) occupied hbi hi
  have hb64 := h.keyed.length_lt hkt
  have hb64' := hkeyed.length_lt hkt
  have hcount := store_count (max m.length
      (if new = doesNotExist then mapErase kt m key else mapSet kt m key new).length)
    hst ht hnew he (h.books.count i hbi hi) (by omega) (by omega) (by omega)
  refine ⟨hinv', fun k => ?_, ?_, hkeyed⟩
  · rw [hkept k]
    by_cases hs : kt.Same key k
    · rw [show (s.setVal i e _).len = s.len from rfl, (hhere k (hsame.trans hkt hs)).2]
      by_cases hz : new = doesNotExist
      · rw [if_pos hz, if_pos hz, mapGet_erase hkt, if_pos hs]
        rfl
      · rw [if_neg hz, if_neg hz, mapGet_set hkt, if_pos hs]
        have hl := hnew.resolve_left hz
        exact if_neg (not_or.mpr ⟨hl.1, hl.2.2⟩)
    · have hns : ¬ kt.Same (kt.keyOf (s.key i e)) k :=
        fun h' => hs ((hsame.symm hkt).trans hkt h')
      rw [show (s.setVal i e _).len = s.len from rfl, hothers k hns, h.value_eq k]
      split_ifs
      · rw [mapGet_erase hkt, if_neg hs]
      · rw [mapGet_set hkt, if_neg hs]
  · exact h.books.write hbi hi he ht htag hn hent hcount (fun j hj => (hcnt j).2.2.1 hj)
      (fun j => (hcnt j).1) fun j => (hcnt j).2.1

/-- What a call finds for its key in the table where it stops. -/
theorem Refines.get_eq (h : Refines kt s b m) (hbi : b ≤ i) (hi : i < s.len)
    (hf : s.find kt key i = some e) (hkey : s.key i e ≠ doesNotExist)
    (ht : ¬ IsTagged (s.val i e))
    (hpass : ∀ x, b ≤ x → x < i → (s.cell kt key x).Passed) :
    mapGet kt m key = meaning (s.val i e) := by
  rw [← h.value_eq key, value_of_passed hbi hi.le hpass]
  apply value_of_read hi
  rw [Ht.cell_of_key hf hkey]
  exact cellOf_read (h.inv.stored i e hi) ht

/-- A key that meets an empty entry has no value. -/
theorem Refines.get_of_empty (h : Refines kt s b m) (hbi : b ≤ i) (hi : i < s.len)
    (hf : s.find kt key i = some e) (hkey : s.key i e = doesNotExist)
    (hpass : ∀ x, b ≤ x → x < i → (s.cell kt key x).Passed) : mapGet kt m key = none := by
  rw [← h.value_eq key, value_of_passed hbi hi.le hpass]
  apply value_of_read hi
  rw [Ht.cell_of_empty hf hkey]
  rfl

/-- The call is done, and did to the map what it was asked for. -/
structure Answered (kt : KeyType) (b key expected new : ℕ) (m : List (ℕ × ℕ)) (s : Ht)
    (r : ℕ × Ht) : Prop where
  ne_copied : r.1 ≠ copiedValue
  result : (if r.1 = tombstone then doesNotExist else r.1) = (mapGet kt m key).getD doesNotExist
  refines : Refines kt r.2 b (mapCas kt m key expected new)
  frame : Frame s r.2

/-- The call has to go on in the next table. -/
structure Deferred (kt : KeyType) (b key i : ℕ) (m : List (ℕ × ℕ)) (s : Ht) (r : ℕ × Ht) :
    Prop where
  copied : r.1 = copiedValue
  refines : Refines kt r.2 b m
  frame : Frame s r.2
  next : i + 1 < r.2.len
  passed : ∀ x, b ≤ x → x < i + 1 → (r.2.cell kt key x).Passed
  /-- A table is appended only behind the last one, and the call ends there. -/
  fresh : r.2.len = s.len ∨ ∃ f, r.2.find kt key (i + 1) = some f ∧ r.2.val (i + 1) f = doesNotExist

/-- What `hti_cas` returns. -/
theorem meaning_getD (v : ℕ) :
    (if v = tombstone then doesNotExist else v) = (meaning v).getD doesNotExist := by
  unfold meaning
  by_cases h : v = tombstone
  · rw [if_pos h, if_pos (Or.inr h)]
    rfl
  · rw [if_neg h]
    by_cases hz : v = doesNotExist
    · rw [if_pos (Or.inl hz), hz]
      rfl
    · rw [if_neg (not_or.mpr ⟨hz, h⟩)]
      rfl

/-- `hti_cas` at an entry that has the key and is still open. -/
theorem htiCas_key (hkt : kt.Lawful) (h : Refines kt s b m) (hbi : b ≤ i) (hi : i < s.len)
    (hf : s.find kt key i = some e) (hkey : s.key i e ≠ doesNotExist)
    (ht : ¬ IsTagged (s.val i e)) (hk : key ≠ 0 ∧ key < 2 ^ 64) (hexp : Expectation expected)
    (hnew : new = doesNotExist ∨ Legal new)
    (hpass : ∀ x, b ≤ x → x < i → (s.cell kt key x).Passed) :
    ∃ r, (∀ fuel, htiCas kt fuel s i key (kt.hash key) expected new = some r)
      ∧ Answered kt b key expected new m s r := by
  have hst := h.inv.stored i e hi
  have hget := h.get_eq hbi hi hf hkey ht hpass
  have hne : s.val i e ≠ copiedValue := fun hc => ht (hc ▸ by decide)
  have hres := (meaning_getD (s.val i e)).trans (congrArg (·.getD doesNotExist) hget.symm)
  have hsame := (h.inv.find_iff hkt hi hkey).mp hf
  have hiff := expected_iff hexp hst ht
  rw [← hget] at hiff
  unfold htiCas
  rw [show (s.tables i).lookup kt key (kt.hash key) = some e from hf]
  simp only [if_neg hkey, if_neg ht, if_neg fun hc : _ ∧ _ => hkey hc.1]
  by_cases htest : expected ≠ expectWhatever ∧ expected ≠ s.val i e
      ∧ expected ≠ if s.val i e ≠ tombstone ∧ s.val i e ≠ doesNotExist then expectExists
        else expectDoesNotExist
  · -- the expectation is not met
    rw [if_pos htest]
    refine ⟨_, fun _ => rfl, hne, hres, ?_, Frame.refl s⟩
    unfold mapCas
    rw [if_neg fun hc => hiff.mpr hc htest]
    exact h
  · rw [if_neg htest]
    have hmeets := hiff.mp htest
    by_cases hnoop : (new = doesNotExist ∧ ¬ (s.val i e ≠ tombstone ∧ s.val i e ≠ doesNotExist))
        ∨ s.val i e = new
    · rw [if_pos hnoop]
      refine ⟨_, fun _ => rfl, hne, hres, ?_, Frame.refl s⟩
      unfold mapCas
      rw [if_pos hmeets]
      by_cases hz : new = doesNotExist
      · -- nothing to remove
        have hnone : mapGet kt m key = none := by
          rw [hget]
          refine if_pos ?_
          rcases hnoop with hn | hn
          · by_contra hc
            exact hn.2 ⟨fun h' => hc (Or.inr h'), fun h' => hc (Or.inl h')⟩
          · exact Or.inl (hn.trans hz)
        rw [if_pos hz, mapErase_of_none hnone]
        exact h
      · -- the value is there already
        have hl := hnew.resolve_left hz
        have hv := hnoop.resolve_left fun h' => hz h'.1
        have hsome : mapGet kt m key = some new := by
          rw [hget, hv]
          exact if_neg (not_or.mpr ⟨hl.1, hl.2.2⟩)
        rw [if_neg hz]
        have hlen := mapErase_length hkt h.keyed.pairwise key
        rw [hsome] at hlen
        refine h.congr (h.keyed.set hkt hk new) hlen fun k => ?_
        rw [mapGet_set hkt]
        split_ifs with hs
        · rw [← hsome, ← h.value_eq, ← h.value_eq, Ht.column_same hkt hs]
        · rfl
    · rw [if_neg hnoop]
      have he := h.inv.find_lt hi hf
      have hpass' : ∀ x, b ≤ x → x < i → (s.cell kt (kt.keyOf (s.key i e)) x).Passed := by
        intro x hbx hx
        rw [Ht.cell_same hkt hsame]
        exact hpass x hbx hx
      have hstore := h.store hkt hbi hi he hkey ht hnew hsame hk hpass'
      have hcnt := fun j =>
        store_counters s i e new j (s.val i e ≠ tombstone ∧ s.val i e ≠ doesNotExist)
      have hent := store_entries s i e new (s.val i e ≠ tombstone ∧ s.val i e ≠ doesNotExist)
      refine ⟨_, fun _ => rfl, hne, hres, ?_, ?_⟩
      · unfold mapCas
        rw [if_pos hmeets]
        exact hstore
      · exact ⟨(hcnt i).2.2.2, hent.len.ge, fun j _ => (hent.scale j).trans (Ht.setVal_scale _),
          fun j _ => (hcnt j).1⟩

/-- The key install of `hti_cas`. -/
theorem WithKey.clone (hkt : kt.Lawful) (hi : Inv kt s b) (hlt : i < s.len) (hk : key ≠ 0)
    (hf : s.find kt key i = some e) (hkey : s.key i e = doesNotExist)
    (hpass : ∀ x, b ≤ x → x < i → (s.cell kt key x).Passed) :
    WithKey kt b key i e s
      (((s.setKey i e (kt.newKey s.clones key (kt.hash key))).cloned).addKeyCount i) := by
  obtain ⟨hgood, hsame⟩ := KeyType.newKey_good hkt s.clones hk
  have hw := WithKey.install hkt hi hlt hkey hgood ((Ht.find_same hkt hsame).trans hf)
    fun x hbx hx => by
      rw [Ht.cell_same hkt hsame]
      exact (hpass x hbx hx).full_or_tagged
  have hent : SameEntries ((s.setKey i e (kt.newKey s.clones key (kt.hash key))).addKeyCount i)
      (((s.setKey i e (kt.newKey s.clones key (kt.hash key))).cloned).addKeyCount i) :=
    ⟨rfl, fun _ => rfl, fun _ => rfl, fun _ => rfl⟩
  obtain ⟨hinv, hkept⟩ := hw.inv.sameEntries hent
  exact ⟨hinv, hw.kept.trans hkept,
    hw.vals.trans ⟨rfl, fun _ _ => rfl, fun _ => rfl, fun _ => rfl, fun _ => rfl, fun _ => rfl⟩,
    hw.hti, hw.key_ne, (Ht.find_same hkt (hsame.symm hkt)).trans hw.find, hw.key_eq, hw.cell_eq⟩

/-- A key that is installed has no value yet. -/
theorem Refines.withKey (h : Refines kt s b m) (hw : WithKey kt b key i e s s') :
    Refines kt s' b m :=
  h.of_kept hw.inv hw.kept (h.books.sameVals hw.vals)

/-- It releases nothing. -/
theorem WithKey.frame (hw : WithKey kt b key i e s s') : Frame s s' :=
  ⟨hw.hti, hw.vals.len.ge, fun j _ => hw.vals.scale j, fun j _ => hw.vals.copied j⟩

/-- `hti_cas` goes on with the entry after it has installed the key. -/
theorem htiCas_install (hf : s.find kt key i = some e) (hkey : s.key i e = doesNotExist)
    (hgo : ¬ ((expected ≠ expectWhatever ∧ expected ≠ expectDoesNotExist) ∨ new = doesNotExist))
    (hw : WithKey kt b key i e s
      (((s.setKey i e (kt.newKey s.clones key (kt.hash key))).cloned).addKeyCount i)) :
    htiCas kt fuel s i key (kt.hash key) expected new
      = htiCas kt fuel
        (((s.setKey i e (kt.newKey s.clones key (kt.hash key))).cloned).addKeyCount i) i key
        (kt.hash key) expected new := by
  conv_lhs => unfold htiCas
  conv_rhs => unfold htiCas
  rw [show (s.tables i).lookup kt key (kt.hash key) = some e from hf,
    show (Hti.lookup kt _ key (kt.hash key)) = some e from hw.find]
  simp only [if_pos hkey, if_neg hw.key_ne, if_neg fun hc : _ ∧ _ => hgo hc.2]

/-- `hti_cas` at an empty entry, when there is nothing to replace or to remove. -/
theorem htiCas_empty (h : Refines kt s b m) (hbi : b ≤ i) (hi : i < s.len)
    (hf : s.find kt key i = some e) (hkey : s.key i e = doesNotExist)
    (hstop : (expected ≠ expectWhatever ∧ expected ≠ expectDoesNotExist) ∨ new = doesNotExist)
    (hpass : ∀ x, b ≤ x → x < i → (s.cell kt key x).Passed) :
    ∃ r, (∀ fuel, htiCas kt fuel s i key (kt.hash key) expected new = some r)
      ∧ Answered kt b key expected new m s r := by
  have hnone := h.get_of_empty hbi hi hf hkey hpass
  refine ⟨(doesNotExist, s), ?_, ?_, ?_, ?_, Frame.refl s⟩
  · unfold htiCas
    rw [show (s.tables i).lookup kt key (kt.hash key) = some e from hf]
    exact fun _ => if_pos ⟨hkey, hstop⟩
  · show doesNotExist ≠ copiedValue
    decide
  · rw [hnone]
    rfl
  · unfold mapCas
    rw [hnone]
    split_ifs with hmeets hz
    · rw [mapErase_of_none hnone]
      exact h
    · have hspecial := hstop.resolve_right hz
      rcases hmeets with hw | hw | hw | hw
      · exact absurd hw hspecial.1
      · exact absurd rfl hw.2
      · exact absurd hw.1 hspecial.2
      · exact absurd hw (by simp)
    · exact h

/-- `hti_cas` at an entry that is still open, with the key or empty. -/
theorem htiCas_open (hkt : kt.Lawful) (h : Refines kt s b m) (hbi : b ≤ i) (hi : i < s.len)
    (hf : s.find kt key i = some e) (ht : ¬ IsTagged (s.val i e)) (hk : key ≠ 0 ∧ key < 2 ^ 64)
    (hexp : Expectation expected) (hnew : new = doesNotExist ∨ Legal new)
    (hpass : ∀ x, b ≤ x → x < i → (s.cell kt key x).Passed) :
    ∃ r, (∀ fuel, htiCas kt fuel s i key (kt.hash key) expected new = some r)
      ∧ Answered kt b key expected new m s r := by
  by_cases hkey : s.key i e = doesNotExist
  · by_cases hstop : (expected ≠ expectWhatever ∧ expected ≠ expectDoesNotExist)
        ∨ new = doesNotExist
    · exact htiCas_empty h hbi hi hf hkey hstop hpass
    · have hw := WithKey.clone hkt h.inv hi hk.1 hf hkey hpass
      simp only [htiCas_install hf hkey hstop hw]
      obtain ⟨r, hr, ha⟩ := htiCas_key hkt (h.withKey hw) hbi
        (by rw [hw.vals.len]; exact hi) hw.find hw.key_ne (by rw [hw.vals.val]; exact ht) hk hexp
        hnew fun x hbx hx => by
          rw [hw.cell_eq key x hx.ne]
          exact hpass x hbx hx
      exact ⟨r, hr, ha.ne_copied, ha.result, ha.refines, hw.frame.trans ha.frame⟩
  · exact htiCas_key hkt h hbi hi hf hkey ht hk hexp hnew hpass

/-- A new table leaves the map as it is. -/
theorem Refines.append (h : Refines kt s b m) {scale : ℕ} (hs : minScale ≤ scale) :
    Refines kt (s.append (htiAlloc scale)) b m := by
  obtain ⟨hinv, hkept⟩ := h.inv.append hs
  exact h.of_kept hinv hkept (h.books.append h.inv.base_lt rfl scale)

/-- It releases nothing. -/
theorem Frame.append (s : Ht) (h : Hti) : Frame s (s.append h) := by
  refine ⟨rfl, Nat.le_succ _, fun j hj => ?_, fun j hj => ?_⟩
  · rw [Ht.append_of_ne h hj.ne]
  · rw [Ht.append_of_ne h hj.ne]

/-- `hti_cas` at a table that has no room for the key. -/
theorem htiCas_full (expected new : ℕ) (h : Refines kt s b m) (hi : i < s.len)
    (hf : s.find kt key i = none)
    (hpass : ∀ x, b ≤ x → x < i → (s.cell kt key x).Passed) :
    ∃ r, (∀ fuel, htiCas kt fuel s i key (kt.hash key) expected new = some r)
      ∧ Deferred kt b key i m s r := by
  have hall : ∀ x, b ≤ x → x < i + 1 → (s.cell kt key x).Passed := by
    intro x hbx hx
    by_cases hxi : x = i
    · rw [hxi, Ht.cell_of_none hf]
      exact trivial
    · exact hpass x hbx (by omega)
  unfold htiCas
  rw [show (s.tables i).lookup kt key (kt.hash key) = none from hf]
  refine ⟨_, fun _ => rfl, ?_⟩
  by_cases hlast : i + 1 < s.len
  · rw [if_pos hlast]
    exact ⟨rfl, h, Frame.refl s, hlast, hall, Or.inl rfl⟩
  · rw [if_neg hlast]
    have hlen : s.len = i + 1 := by omega
    obtain ⟨scale, hs, heq⟩ := htiStartCopy_eq hlast
    rw [heq]
    refine ⟨rfl, h.append (le_trans (h.inv.scale i hi) hs), Frame.append s _, ?_, ?_, Or.inr ?_⟩
    · change i + 1 < s.len + 1
      omega
    · intro x hbx hx
      rw [Ht.append_cell _ (by omega)]
      exact hall x hbx hx
    · rw [← hlen]
      obtain ⟨f, hfresh⟩ := @Ht.append_alloc_find kt s key scale
      exact ⟨f, hfresh, Ht.append_alloc_val scale⟩

/-- `hti_cas` at an entry that has been copied or killed; it has the key, or gets it now. -/
theorem htiCas_dead (expected new : ℕ) (h : Refines kt s b m) (hbi : b ≤ i) (hi : i < s.len)
    (hf : s.find kt key i = some e) (ht : IsTagged (s.val i e))
    (hpass : ∀ x, b ≤ x → x < i → (s.cell kt key x).Passed)
    (hkey : s.key i e ≠ doesNotExist) :
    ∃ r, (∀ fuel, htiCas kt fuel s i key (kt.hash key) expected new = some r)
      ∧ Deferred kt b key i m s r := by
  have hdead := (h.books.quiet i e hbi hi ht).resolve_right nofun
  refine ⟨(copiedValue, s), ?_, rfl, h, Frame.refl s, h.inv.next i e hi ht, ?_, Or.inl rfl⟩
  · unfold htiCas
    rw [show (s.tables i).lookup kt key (kt.hash key) = some e from hf]
    simp only [if_neg hkey, if_pos ht, if_pos hdead, if_neg fun hc : _ ∧ _ => hkey hc.1, implies_true]
  · intro x hbx hx
    by_cases hxi : x = i
    · rw [hxi, Ht.cell_of_key hf hkey]
      exact cellOf_passed_iff.mpr hdead
    · exact hpass x hbx (by omega)

/-- **`hti_cas`** either does the call, or leaves it to the next table. -/
theorem htiCas_spec (hkt : kt.Lawful) (h : Refines kt s b m) (hbi : b ≤ i) (hi : i < s.len)
    (hk : key ≠ 0 ∧ key < 2 ^ 64) (hexp : Expectation expected)
    (hnew : new = doesNotExist ∨ Legal new)
    (hpass : ∀ x, b ≤ x → x < i → (s.cell kt key x).Passed) :
    ∃ r, (∀ fuel, htiCas kt fuel s i key (kt.hash key) expected new = some r)
      ∧ (Answered kt b key expected new m s r ∨ Deferred kt b key i m s r) := by
  cases hf : s.find kt key i with
  | none =>
    obtain ⟨r, hr, hd⟩ := htiCas_full expected new h hi hf hpass
    exact ⟨r, hr, Or.inr hd⟩
  | some e =>
    by_cases ht : IsTagged (s.val i e)
    · by_cases hkey : s.key i e = doesNotExist
      · by_cases hstop : (expected ≠ expectWhatever ∧ expected ≠ expectDoesNotExist)
            ∨ new = doesNotExist
        · obtain ⟨r, hr, ha⟩ := htiCas_empty h hbi hi hf hkey hstop hpass
          exact ⟨r, hr, Or.inl ha⟩
        · have hw := WithKey.clone hkt h.inv hi hk.1 hf hkey hpass
          simp only [htiCas_install hf hkey hstop hw]
          obtain ⟨r, hr, hd⟩ := htiCas_dead expected new
            (h.withKey hw) hbi (by rw [hw.vals.len]; exact hi) hw.find
            (by rw [hw.vals.val]; exact ht) (fun x hbx hx => by
              rw [hw.cell_eq key x hx.ne]
              exact hpass x hbx hx) hw.key_ne
          refine ⟨r, hr, Or.inr ⟨hd.copied, hd.refines, hw.frame.trans hd.frame, hd.next,
            hd.passed, ?_⟩⟩
          rw [← hw.vals.len]
          exact hd.fresh
      · obtain ⟨r, hr, hd⟩ := htiCas_dead expected new h hbi
          hi hf ht hpass hkey
        exact ⟨r, hr, Or.inr hd⟩
    · obtain ⟨r, hr, ha⟩ := htiCas_open hkt h hbi hi hf ht hk hexp hnew hpass
      exact ⟨r, hr, Or.inl ha⟩

/-- The call is done in a table whose entry for the key is open. -/
theorem casLoop_of_answered {r : ℕ × Ht}
    (hr : ∀ fuel, htiCas kt fuel s i key (kt.hash key) expected new = some r)
    (ha : Answered kt b key expected new m s r) :
    casLoop kt (fuel + 1) s i key expected new
      = some ((mapGet kt m key).getD doesNotExist, r.2) := by
  simp only [casLoop, hr]
  rw [if_neg ha.ne_copied]
  exact congrArg (fun x => some (x, r.2)) ha.result

/-- **The loop of `ht_cas` and `ht_remove`** reaches the table where the call is done. -/
theorem casLoop_spec (hkt : kt.Lawful) (hk : key ≠ 0 ∧ key < 2 ^ 64) (hexp : Expectation expected)
    (hnew : new = doesNotExist ∨ Legal new) {d : ℕ} :
    ∀ {s : Ht} {i : ℕ}, s.len - i ≤ d → Refines kt s b m → b ≤ i → i < s.len →
      (∀ x, b ≤ x → x < i → (s.cell kt key x).Passed) →
      ∃ s', (∀ fuel > d, casLoop kt fuel s i key expected new
          = some ((mapGet kt m key).getD doesNotExist, s'))
        ∧ Refines kt s' b (mapCas kt m key expected new) ∧ Frame s s' := by
  induction d with
  | zero =>
    intro s i hd _ _ hi _
    omega
  | succ d ih =>
    intro s i hd h hbi hi hpass
    obtain ⟨r, hr, ha | hdef⟩ := htiCas_spec hkt h hbi hi hk hexp hnew hpass
    · refine ⟨r.2, fun fuel hfuel => ?_, ha.refines, ha.frame⟩
      obtain ⟨fuel, rfl⟩ := Nat.exists_eq_succ_of_ne_zero (Nat.ne_zero_of_lt hfuel)
      exact casLoop_of_answered hr ha
    · have hnext : ∃ s', (∀ fuel > d, casLoop kt fuel r.2 (i + 1) key expected new
            = some ((mapGet kt m key).getD doesNotExist, s'))
          ∧ Refines kt s' b (mapCas kt m key expected new) ∧ Frame r.2 s' := by
        rcases hdef.fresh with hlen | ⟨f, hf, hv⟩
        · exact ih (by omega) hdef.refines (by omega) hdef.next hdef.passed
        · -- the new table has room
          have hopen : ¬ IsTagged (r.2.val (i + 1) f) := by
            rw [hv]
            decide
          obtain ⟨r', hr', ha⟩ := htiCas_open hkt hdef.refines (by omega) hdef.next hf hopen hk
            hexp hnew hdef.passed
          refine ⟨r'.2, fun fuel hfuel => ?_, ha.refines, ha.frame⟩
          obtain ⟨fuel, rfl⟩ := Nat.exists_eq_succ_of_ne_zero (Nat.ne_zero_of_lt hfuel)
          exact casLoop_of_answered hr' ha
      obtain ⟨s', hrun, href, hframe⟩ := hnext
      refine ⟨s', fun fuel hfuel => ?_, href, hdef.frame.trans hframe⟩
      obtain ⟨fuel, rfl⟩ := Nat.exists_eq_succ_of_ne_zero (Nat.ne_zero_of_lt hfuel)
      simp only [casLoop, hr]
      rw [if_pos hdef.copied]
      exact hrun fuel (by omega)

/-- At rest a tag is left on dead entries only. -/
theorem Refines.dead_of_isTagged (h : Refines kt s b m) (hi : i < s.len)
    (he : e < 2 ^ (s.tables i).scale) (ht : IsTagged (s.val i e)) : Dead (s.val i e) := by
  rcases Nat.lt_or_ge i b with hib | hbi
  · exact h.inv.retired i e hib he
  · exact (h.books.quiet i e hbi hi ht).resolve_right nofun

/-- **`hti_get`** at rest, from any table on. -/
theorem htiGet_value {d : ℕ} (h : Refines kt s b m) : ∀ {fuel i : ℕ}, s.len - i ≤ d → d < fuel →
    i < s.len → htiGet kt fuel s i key (kt.hash key)
      = some ((value (s.cell kt key) i s.len).getD doesNotExist, s) := by
  induction d with
  | zero =>
    intro fuel i hd _ hi
    omega
  | succ d ih =>
    intro fuel i hd hfuel hi
    obtain ⟨fuel, rfl⟩ := Nat.exists_eq_add_of_lt (Nat.zero_lt_of_lt hfuel)
    rw [Nat.zero_add] at hfuel ⊢
    simp only [htiGet]
    cases hf : s.find kt key i with
    | none =>
      rw [show (s.tables i).lookup kt key (kt.hash key) = none from hf]
      rw [value_of_read_none hi (by rw [Ht.cell_of_none hf]; rfl)]
      by_cases hlast : i + 1 < s.len
      · simp only [if_pos hlast]
        exact ih (by omega) (by omega) hlast
      · simp only [if_neg hlast]
        rw [value_of_le (by omega)]
        rfl
    | some e =>
      rw [show (s.tables i).lookup kt key (kt.hash key) = some e from hf]
      simp only
      by_cases hkey : s.key i e = doesNotExist
      · rw [if_pos hkey, value_of_read hi (by rw [Ht.cell_of_empty hf hkey]; rfl)]
        rfl
      · have hcell := Ht.cell_of_key hf hkey
        rw [if_neg hkey]
        by_cases ht : IsTagged (s.val i e)
        · have hdead := h.dead_of_isTagged hi (h.inv.find_lt hi hf) ht
          rw [if_pos ht, if_pos hdead, value_of_read_none hi
            (by rw [hcell]; exact (cellOf_passed_iff.mpr hdead).read_eq)]
          exact ih (by omega) (by omega) (h.inv.next i e hi ht)
        · rw [if_neg ht, value_of_read hi (by rw [hcell]; exact cellOf_read (h.inv.stored i e hi) ht),
            ← meaning_getD]

/-- **`hti_get`** goes to the table where the key is read; it has nothing to copy. -/
theorem htiGet_spec {d : ℕ} (h : Refines kt s b m) :
    ∀ {fuel i : ℕ}, s.len - i ≤ d → d < fuel → b ≤ i → i < s.len →
      (∀ x, b ≤ x → x < i → (s.cell kt key x).Passed) →
      htiGet kt fuel s i key (kt.hash key) = some ((mapGet kt m key).getD doesNotExist, s) := by
  intro fuel i hd hfuel hbi hi hpass
  rw [htiGet_value h hd hfuel hi, ← h.value_eq key, value_of_passed hbi hi.le hpass]

/-- The sum of `ht_count`, in words. -/
theorem foldl_count (s : Ht) (xs : List ℕ) (n : ℕ) (hn : n < 2 ^ 64) :
    xs.foldl (fun n i => (n + (s.tables i).count) % 2 ^ 64) n
      = (n + (xs.map fun i => (s.tables i).count).sum) % 2 ^ 64 := by
  induction xs generalizing n with
  | nil => exact (Nat.mod_eq_of_lt hn).symm
  | cons x xs ih =>
    rw [List.foldl_cons, ih _ (Nat.mod_lt _ (by decide)), List.map_cons, List.sum_cons]
    omega

/-- **`ht_count`** is the number of keys. -/
theorem htCount_eq (hkt : kt.Lawful) (h : Refines kt s s.hti m) : htCount s = m.length := by
  have hsum : ((List.range' s.hti (s.len - s.hti)).map fun i => (s.tables i).count).sum
      = m.length := by
    rw [← h.books.stored, total, ← List.sum_toFinset _ List.nodup_range', List.toFinset_range'_1]
    rw [Nat.add_sub_cancel' h.inv.base_lt.le]
    refine Finset.sum_congr rfl fun i hi => ?_
    obtain ⟨hb, hlt⟩ := Finset.mem_Ico.mp hi
    exact h.books.count i hb hlt
  unfold htCount
  rw [foldl_count s _ 0 (by decide), hsum, Nat.zero_add, Nat.mod_eq_of_lt (h.keyed.length_lt hkt)]

/-- `ht_cas` has moved `ht->hti` on: the table behind it holds everything. -/
theorem Refines.retire (h : Refines kt s b m) (hnext : b + 1 < s.len)
    (hall : (s.tables b).numEntriesCopied = 2 ^ (s.tables b).scale) :
    Refines kt s (b + 1) m := by
  have hc := h.books.copied b le_rfl (by omega)
  rw [hall, Nat.add_zero] at hc
  have hdead : ∀ e, e < 2 ^ (s.tables b).scale → Dead (s.val b e) := fun e he =>
    of_decide_eq_true (census_eq_size dead hc he)
  obtain ⟨hinv, hval⟩ := h.inv.retire hnext hdead
  exact ⟨hinv, fun k => (hval k).trans (h.value_eq k), h.books.retire (by omega) hdead, h.keyed⟩

/-- So does the unlinking of a table. -/
theorem Refines.setHti (h : Refines kt s b m) (x : ℕ) : Refines kt { s with hti := x } b m := by
  have hent : SameEntries s { s with hti := x } := ⟨rfl, fun _ => rfl, fun _ => rfl, fun _ => rfl⟩
  obtain ⟨hinv, hkept⟩ := h.inv.sameEntries hent
  exact h.of_kept hinv hkept (h.books.sameVals
    ⟨rfl, fun _ _ => rfl, fun _ => rfl, fun _ => rfl, fun _ => rfl, fun _ => rfl⟩)

/-- **`ht_cas`**, with its share of the copy. -/
theorem htCas_spec (hkt : kt.Lawful) (h : Refines kt s s.hti m) (hk : key ≠ 0 ∧ key < 2 ^ 64)
    (hexp : Expectation expected) (hnew : Legal new) :
    ∃ fuel s', (∀ fuel' ≥ fuel, htCas kt fuel' s key expected new
        = some ((mapGet kt m key).getD doesNotExist, s'))
      ∧ Refines kt s' s'.hti (mapCas kt m key expected new) := by
  have hn := h.keyed.length_lt hkt
  by_cases hcopy : s.hti + 1 < s.len
  · obtain ⟨fuel, finished, s₁, hhelp, hinv, hkept, hbooks, hhti, hlen, hfin⟩ :=
      htiHelpCopy_spec hkt hn le_rfl h.inv h.books hcopy
    have h₁ : Refines kt s₁ s.hti m := h.of_kept hinv hkept hbooks
    -- `ht->hti` may have moved on, but this call still starts at the old table
    obtain ⟨x, hx⟩ : ∃ x, (if finished then { s₁ with hti := s.hti + 1 } else s₁)
        = { s₁ with hti := x } := by
      cases finished with
      | false => exact ⟨s₁.hti, rfl⟩
      | true => exact ⟨s.hti + 1, rfl⟩
    obtain ⟨s', hrun, href, hframe⟩ := casLoop_spec hkt hk hexp (Or.inr hnew) le_rfl
      (h₁.setHti x) le_rfl (lt_of_lt_of_le (Nat.lt_of_succ_lt hcopy) hlen) fun x h1 h2 => by omega
    refine ⟨max fuel (s₁.len - s.hti + 1), s', fun fuel' hf => ?_, ?_⟩
    · unfold htCas
      simp only [if_pos hcopy, htiHelpCopy_mono (le_of_max_le_left hf) hhelp, hx]
      exact hrun fuel' (lt_of_lt_of_le (Nat.lt_succ_self _) (le_of_max_le_right hf))
    · rw [hframe.hti]
      cases finished with
      | false =>
        rw [show x = s.hti from (congrArg Ht.hti hx).symm.trans hhti]
        exact href
      | true =>
        have hlt : s.hti < s₁.len := lt_of_lt_of_le (Nat.lt_of_succ_lt hcopy) hlen
        rw [show x = s.hti + 1 from (congrArg Ht.hti hx).symm]
        refine href.retire (lt_of_lt_of_le hcopy (hlen.trans hframe.len)) ?_
        rw [hframe.copied _ hlt, hframe.scale _ hlt]
        exact hfin rfl
  · obtain ⟨s', hrun, href, hframe⟩ := casLoop_spec hkt hk hexp (Or.inr hnew) le_rfl h le_rfl
      h.inv.base_lt fun x h1 h2 => by omega
    refine ⟨s.len - s.hti + 1, s', fun fuel' hf => ?_, ?_⟩
    · unfold htCas
      simp only [if_neg hcopy]
      exact hrun fuel' (lt_of_lt_of_le (Nat.lt_succ_self _) hf)
    · rw [hframe.hti]
      exact href

/-- **Every call** returns what it would on the finite map. -/
theorem call_spec (hkt : kt.Lawful) (h : Refines kt s s.hti m) {c : Call} (hc : c.Valid) :
    ∃ fuel s', (∀ fuel' ≥ fuel, call kt fuel' s c = some ((mapCall kt m c).1, s'))
      ∧ Refines kt s' s'.hti (mapCall kt m c).2 := by
  cases c with
  | cas key expected new =>
    obtain ⟨hk, hnew, hexp⟩ := hc
    obtain ⟨fuel, s', hrun, href⟩ := htCas_spec hkt h hk hexp hnew
    refine ⟨fuel, s', hrun, ?_⟩
    unfold mapCas at href
    simp only [if_neg hnew.1] at href
    exact href
  | get key =>
    refine ⟨s.len - s.hti + 1, s, fun fuel' hf => ?_, h⟩
    exact htiGet_spec h le_rfl (lt_of_lt_of_le (Nat.lt_succ_self _) hf) le_rfl h.inv.base_lt
      fun x h1 h2 => by omega
  | remove key =>
    obtain ⟨s', hrun, href, hframe⟩ := casLoop_spec hkt hc
      (show Expectation expectWhatever from Or.inr (Or.inr (Or.inl rfl))) (Or.inl rfl) le_rfl h
      le_rfl h.inv.base_lt fun x h1 h2 => by omega
    refine ⟨s.len - s.hti + 1, s',
      fun fuel' hf => hrun fuel' (lt_of_lt_of_le (Nat.lt_succ_self _) hf), ?_⟩
    rw [hframe.hti]
    exact href
  | count => exact ⟨0, s, fun _ _ => congrArg (fun n => some (n, s)) (htCount_eq hkt h), h⟩

/-- A new table stands for the empty map. -/
theorem htAlloc_refines (kt : KeyType) : Refines kt htAlloc htAlloc.hti [] := by
  have hempty : ∀ i e, htAlloc.val i e = doesNotExist := fun _ _ => rfl
  have hcensus : ∀ (P : ℕ → Bool) i, P doesNotExist = false → census P htAlloc i = 0 :=
    fun P i hP => census_eq_zero P fun e _ => by rw [hempty]; exact hP
  refine ⟨htAlloc_inv kt, fun k => ?_, ⟨fun i _ _ => ?_, ?_, fun i _ _ => ?_, fun i e _ _ ht => ?_,
    fun i _ => dvd_zero _⟩, List.Pairwise.nil, by simp⟩
  · refine value_of_uninstalled fun x _ hx hc => ?_
    unfold Ht.cell at hc
    split at hc
    · exact hc
    · rw [if_pos (show htAlloc.key x _ = doesNotExist from rfl)] at hc
      exact hc
  · rw [hcensus occupied i rfl]
    rfl
  · exact Finset.sum_eq_zero fun i _ => hcensus occupied i rfl
  · rw [hcensus dead i rfl]
    rfl
  · rw [hempty] at ht
    exact absurd ht (by decide)

/-- **Any sequence of calls** does what the map does. -/
theorem calls_spec (hkt : kt.Lawful) (cs : List Call) :
    ∀ {s : Ht} {m : List (ℕ × ℕ)}, Refines kt s s.hti m → (∀ c ∈ cs, c.Valid) →
      ∃ fuel, ∀ fuel' ≥ fuel, calls kt fuel' s cs = some (mapCalls kt m cs) := by
  induction cs with
  | nil => exact fun _ _ => ⟨0, fun _ _ => rfl⟩
  | cons c cs ih =>
    intro s m h hvalid
    obtain ⟨hc, hcs⟩ := List.forall_mem_cons.mp hvalid
    obtain ⟨fuel₁, s', hrun, href⟩ := call_spec hkt h hc
    obtain ⟨fuel₂, hrest⟩ := ih href hcs
    refine ⟨max fuel₁ fuel₂, fun fuel' hf => ?_⟩
    simp only [calls, hrun fuel' (le_of_max_le_left hf), hrest fuel' (le_of_max_le_right hf)]
    rfl

/-- **The hash table is a finite map**: every sequence of calls by one thread on a new table
terminates, and returns what it would on a finite map. -/
theorem hashtable_refines_map (kt : KeyType) (hkt : kt.Lawful) (cs : List Call)
    (hvalid : ∀ c ∈ cs, c.Valid) :
    ∃ fuel, ∀ fuel' ≥ fuel, calls kt fuel' htAlloc cs = some (mapCalls kt [] cs) :=
  calls_spec hkt cs (htAlloc_refines kt) hvalid

/-- Keys that are compared by their last three digits, all with the same hash. -/
def lastDigits : Datatype where
  cmp p q := (p % 1000 : ℕ) - (q % 1000 : ℕ)
  hash _ := 7
  clone n p := 1000 * (n % 2 ^ 20 + 1) + p % 1000

/-- The keys of the run are lawful. -/
theorem lastDigits_lawful : (KeyType.typed lastDigits).Lawful := by
  refine ⟨fun p => sub_self _, fun p q h => ?_, fun p q r h h' => ?_, fun p q _ => rfl, fun n p => ?_,
    fun n p => ?_, fun n p => ?_⟩
  · simp only [lastDigits] at h ⊢
    omega
  · simp only [lastDigits] at h h' ⊢
    omega
  · simp only [lastDigits]
    omega
  · simp only [lastDigits]
    omega
  · simp only [lastDigits]
    omega

/-- More keys than the first table has room for, then a look at them. -/
def grown : List Call :=
  ((List.range 20).map fun n => .cas (n + 1) expectDoesNotExist (n + 100))
    ++ [.count, .get 1003, .cas 3 102 500, .cas 3 102 600, .remove 2003, .get 3, .count]

/-- Twenty keys, so that the table grows twice. -/
theorem hashtable_refines_map_grown :
    (∀ c ∈ grown, c.Valid) ∧ ∃ fuel, ∀ fuel' ≥ fuel,
      calls (.typed lastDigits) fuel' htAlloc grown
        = some (List.replicate 20 0 ++ [20, 102, 102, 500, 500, 0, 19]) := by
  have hvalid : ∀ c ∈ grown, c.Valid := by decide
  have hmap : mapCalls (.typed lastDigits) [] grown
      = List.replicate 20 0 ++ [20, 102, 102, 500, 500, 0, 19] := by decide +kernel
  rw [← hmap]
  exact ⟨hvalid, hashtable_refines_map _ lastDigits_lawful grown hvalid⟩

end Calls

end Hashtable
