/-
# The counters of the hash table

`hti->count` and `hti->num_entries_copied` of a table that a single thread uses are the
numbers of its entries that hold a value, and of those that are dead.

* `census` — the number of entries of a table of some kind, and what a store does to it;
* `Books` — the counters agree with the entries.
-/
import Mathlib.Algebra.BigOperators.Group.Finset.Basic
import Mathlib.Algebra.Order.BigOperators.Group.Finset
import Mathlib.Order.Interval.Finset.Nat
import Ssr.HashtableCalls
import Ssr.HashtableChain

open Map Migration

namespace Hashtable

/-! ## Counting entries -/

section Census

variable {s s' : Ht} {b i j e v : ℕ}

/-- The number of entries of table `i` whose value is of kind `P`. -/
def census (P : ℕ → Bool) (s : Ht) (i : ℕ) : ℕ :=
  ∑ e ∈ Finset.range (2 ^ (s.tables i).scale), (P (s.val i e)).toNat

/-- The value of an entry that has one: it may be in the middle of a copy. -/
def occupied (v : ℕ) : Bool :=
  match cellOf v with
  | .live _ | .moving _ => true
  | _ => false

/-- The value of a dead entry. -/
def dead (v : ℕ) : Bool := decide (Dead v)

theorem occupied_of_legal (h : Legal v) : occupied v = true := by
  unfold occupied
  rw [cellOf_live h]

theorem occupied_tagValue (h : Legal v) : occupied (tagValue v) = true := by
  unfold occupied
  rw [cellOf_moving h]

theorem dead_of_legal (h : Legal v) : dead v = false := decide_eq_false h.not_dead

theorem dead_tagValue (h : Legal v) : dead (tagValue v) = false :=
  decide_eq_false h.tagValue_not_dead

/-- A sum that changes in one place. -/
theorem sum_change {t : Finset ℕ} (f f' : ℕ → ℕ) (hi : i ∈ t) (h : ∀ m, m ≠ i → f' m = f m) :
    ∑ m ∈ t, f' m + f i = ∑ m ∈ t, f m + f' i := by
  rw [← Finset.add_sum_erase t f hi, ← Finset.add_sum_erase t f' hi]
  have hrest : ∑ m ∈ t.erase i, f' m = ∑ m ∈ t.erase i, f m :=
    Finset.sum_congr rfl fun m hm => h m (Finset.ne_of_mem_erase hm)
  rw [hrest]
  ring

/-- A store into a value. -/
theorem census_setVal (P : ℕ → Bool) (he : e < 2 ^ (s.tables i).scale) :
    census P (s.setVal i e v) i + (P (s.val i e)).toNat = census P s i + (P v).toNat := by
  unfold census
  rw [Ht.setVal_scale]
  have h := sum_change (fun f => (P (s.val i f)).toNat)
    (fun f => (P ((s.setVal i e v).val i f)).toNat) (Finset.mem_range.mpr he) fun f hf => by
      rw [Ht.setVal_val_of_ne v fun h => hf h.2]
  simp only [Ht.setVal_val_self] at h
  exact h

theorem census_setVal_of_ne (P : ℕ → Bool) (hj : j ≠ i) :
    census P (s.setVal i e v) j = census P s j := by
  unfold census
  rw [Ht.setVal_scale]
  refine Finset.sum_congr rfl fun f _ => ?_
  rw [Ht.setVal_val_of_ne v fun h => hj h.1]

/-- The number of entries of kind `P` in the tables from `b` on. -/
def total (P : ℕ → Bool) (s : Ht) (b : ℕ) : ℕ := ∑ i ∈ Finset.Ico b s.len, census P s i

theorem total_setVal (P : ℕ → Bool) (hbi : b ≤ i) (hi : i < s.len)
    (he : e < 2 ^ (s.tables i).scale) :
    total P (s.setVal i e v) b + (P (s.val i e)).toNat = total P s b + (P v).toNat := by
  have h := sum_change (census P s) (census P (s.setVal i e v)) (Finset.mem_Ico.mpr ⟨hbi, hi⟩)
    fun j hj => census_setVal_of_ne P hj
  have h' := census_setVal (v := v) P he
  show ∑ j ∈ Finset.Ico b s.len, census P (s.setVal i e v) j + _ = _
  unfold total
  omega

theorem census_le_total (P : ℕ → Bool) (hbi : b ≤ i) (hi : i < s.len) :
    census P s i ≤ total P s b :=
  Finset.single_le_sum (f := fun j => census P s j) (fun _ _ => Nat.zero_le _)
    (Finset.mem_Ico.mpr ⟨hbi, hi⟩)

/-- A table all of whose entries are counted. -/
theorem census_eq_size (P : ℕ → Bool) (h : census P s i = 2 ^ (s.tables i).scale)
    (he : e < 2 ^ (s.tables i).scale) : P (s.val i e) = true := by
  by_contra hne
  have hlt : census P s i < ∑ _f ∈ Finset.range (2 ^ (s.tables i).scale), 1 := by
    refine Finset.sum_lt_sum (fun f _ => Bool.toNat_le _) ⟨e, Finset.mem_range.mpr he, ?_⟩
    rw [Bool.eq_false_iff.mpr hne]
    exact Nat.zero_lt_one
  rw [Finset.sum_const, Finset.card_range, smul_eq_mul, mul_one, h] at hlt
  exact lt_irrefl _ hlt

theorem census_eq_zero (P : ℕ → Bool)
    (h : ∀ e, e < 2 ^ (s.tables i).scale → P (s.val i e) = false) : census P s i = 0 := by
  refine Finset.sum_eq_zero fun e he => ?_
  rw [h e (Finset.mem_range.mp he)]
  rfl

end Census

/-! ## The books -/

/-- The counters agree with the entries of the tables from `b` on.  `n` values are stored
in all; `pend i` dead entries of table `i` have not been added to its counter; the value
of entry `busy` may be in the middle of a copy, and no other one is. -/
structure Books (s : Ht) (b n : ℕ) (pend : ℕ → ℕ) (busy : Option (ℕ × ℕ)) : Prop where
  count : ∀ i, b ≤ i → i < s.len → (s.tables i).count = census occupied s i
  stored : total occupied s b = n
  copied : ∀ i, b ≤ i → i < s.len → census dead s i = (s.tables i).numEntriesCopied + pend i
  quiet : ∀ i e, b ≤ i → i < s.len → IsTagged (s.val i e) → Dead (s.val i e) ∨ busy = some (i, e)
  scan : ∀ i, i < s.len → entriesPerCopyChunk ∣ (s.tables i).copyScan

section Books

variable {s s' : Ht} {b i j e n v : ℕ} {pend : ℕ → ℕ} {busy : Option (ℕ × ℕ)}

/-- The values and the counters of the old tables are the same; keys may be new. -/
structure SameVals (s s' : Ht) : Prop where
  len : s'.len = s.len
  val : ∀ i e, s'.val i e = s.val i e
  scale : ∀ i, (s'.tables i).scale = (s.tables i).scale
  count : ∀ i, (s'.tables i).count = (s.tables i).count
  copied : ∀ i, (s'.tables i).numEntriesCopied = (s.tables i).numEntriesCopied
  scan : ∀ i, (s'.tables i).copyScan = (s.tables i).copyScan

theorem SameVals.refl (s : Ht) : SameVals s s :=
  ⟨rfl, fun _ _ => rfl, fun _ => rfl, fun _ => rfl, fun _ => rfl, fun _ => rfl⟩

theorem SameVals.trans {s'' : Ht} (h : SameVals s s') (h' : SameVals s' s'') : SameVals s s'' :=
  ⟨h'.len.trans h.len, fun i e => (h'.val i e).trans (h.val i e),
    fun i => (h'.scale i).trans (h.scale i), fun i => (h'.count i).trans (h.count i),
    fun i => (h'.copied i).trans (h.copied i), fun i => (h'.scan i).trans (h.scan i)⟩

theorem SameVals.setTable {h : Hti} (hv : ∀ e, (h.table e).val = s.val i e)
    (hs : h.scale = (s.tables i).scale) (hc : h.count = (s.tables i).count)
    (hd : h.numEntriesCopied = (s.tables i).numEntriesCopied)
    (hx : h.copyScan = (s.tables i).copyScan) : SameVals s (s.setTable i h) := by
  refine ⟨rfl, fun j e => ?_, fun j => ?_, fun j => ?_, fun j => ?_, fun j => ?_⟩
  · unfold Ht.val
    by_cases hj : j = i
    · subst hj
      rw [Ht.setTable_self]
      exact hv e
    · rw [Ht.setTable_of_ne _ hj]
  all_goals
    by_cases hj : j = i
    · subst hj
      rw [Ht.setTable_self]
      assumption
    · rw [Ht.setTable_of_ne _ hj]

theorem SameVals.census_eq (h : SameVals s s') (P : ℕ → Bool) (i : ℕ) :
    census P s' i = census P s i := by
  unfold census
  rw [h.scale]
  exact Finset.sum_congr rfl fun e _ => by rw [h.val]

theorem SameVals.total_eq (h : SameVals s s') (P : ℕ → Bool) (b : ℕ) :
    total P s' b = total P s b := by
  unfold total
  rw [h.len]
  exact Finset.sum_congr rfl fun i _ => h.census_eq P i

theorem Books.sameVals (hb : Books s b n pend busy) (h : SameVals s s') :
    Books s' b n pend busy := by
  have hlen := h.len
  refine ⟨fun i hbi hi => ?_, ?_, fun i hbi hi => ?_, fun i e hbi hi => ?_, fun i hi => ?_⟩
  · rw [h.count, h.census_eq]
    exact hb.count i hbi (by omega)
  · rw [h.total_eq]
    exact hb.stored
  · rw [h.copied, h.census_eq]
    exact hb.copied i hbi (by omega)
  · rw [h.val]
    exact hb.quiet i e hbi (by omega)
  · rw [h.scan]
    exact hb.scan i (by omega)

/-- A new table has nothing to count. -/
theorem Books.append (hb : Books s b n pend busy) (hlt : b < s.len) (hp : pend s.len = 0)
    (scale : ℕ) : Books (s.append (htiAlloc scale)) b n pend busy := by
  have hold : ∀ j, j ≠ s.len → (s.append (htiAlloc scale)).tables j = s.tables j := fun j hj =>
    Function.update_of_ne hj _ _
  have hnew : (s.append (htiAlloc scale)).tables s.len = htiAlloc scale :=
    Function.update_self _ _ _
  have hval : ∀ e, (s.append (htiAlloc scale)).val s.len e = doesNotExist := fun e => by
    unfold Ht.val
    rw [hnew]
    rfl
  have hcensus : ∀ P j, j ≠ s.len → census P (s.append (htiAlloc scale)) j = census P s j := by
    intro P j hj
    unfold census Ht.val
    rw [hold j hj]
  have hzero : ∀ P, P doesNotExist = false → census P (s.append (htiAlloc scale)) s.len = 0 :=
    fun P hP => census_eq_zero P fun e _ => by rw [hval, hP]
  have hlast : ∀ j, j < s.len + 1 → j ≠ s.len → j < s.len := fun j h h' => by omega
  refine ⟨fun i hbi hi => ?_, ?_, fun i hbi hi => ?_, fun i e hbi hi ht => ?_, fun i hi => ?_⟩
  · by_cases h : i = s.len
    · rw [h, hzero occupied rfl, hnew]
      rfl
    · rw [hold i h, hcensus _ i h]
      exact hb.count i hbi (hlast i hi h)
  · show ∑ j ∈ Finset.Ico b (s.len + 1), census occupied (s.append (htiAlloc scale)) j = n
    rw [Finset.sum_Ico_succ_top hlt.le, hzero occupied rfl, add_zero, ← hb.stored]
    refine Finset.sum_congr rfl fun j hj => hcensus _ j ?_
    exact (Finset.mem_Ico.mp hj).2.ne
  · by_cases h : i = s.len
    · rw [h, hzero dead (by decide), hnew, hp]
      rfl
    · rw [hold i h, hcensus _ i h]
      exact hb.copied i hbi (hlast i hi h)
  · have h : i ≠ s.len := by
      rintro rfl
      rw [hval] at ht
      exact absurd ht (by decide)
    have hv : (s.append (htiAlloc scale)).val i e = s.val i e := by
      unfold Ht.val
      rw [hold i h]
    rw [hv] at ht ⊢
    exact hb.quiet i e hbi (hlast i hi h) ht
  · by_cases h : i = s.len
    · rw [h, hnew]
      exact dvd_zero _
    · rw [hold i h]
      exact hb.scan i (hlast i hi h)

/-- The tables from `b + 1` on, when table `b` holds nothing any more. -/
theorem Books.retire (hb : Books s b n pend busy) (hlt : b < s.len)
    (hdead : ∀ e, e < 2 ^ (s.tables b).scale → Dead (s.val b e)) :
    Books s (b + 1) n pend busy := by
  have hzero : census occupied s b = 0 := by
    refine census_eq_zero occupied fun e he => ?_
    have hp := cellOf_passed_iff.mpr (hdead e he)
    unfold occupied
    split
    · rename_i h
      rw [h] at hp
      exact hp.elim
    · rename_i h
      rw [h] at hp
      exact hp.elim
    · rfl
  refine ⟨fun i hi => hb.count i (by omega), ?_, fun i hi => hb.copied i (by omega),
    fun i e hi => hb.quiet i e (by omega), hb.scan⟩
  have hsum := hb.stored
  unfold total at hsum ⊢
  rw [Finset.sum_eq_sum_Ico_succ_bot hlt, hzero, zero_add] at hsum
  exact hsum

end Books

end Hashtable
