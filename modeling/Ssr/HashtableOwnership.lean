/-
# Every key object is freed once, or it was lost

The pointers that `hti_defer_free` would pass on are those of the entries that are not
`COPIED_VALUE`.  A copy hands a pointer from one such entry to another, `hti_cas` puts a new
one into such an entry, unless the copy has killed it, and releasing a table frees those
that it has.  So what `clone` has made is what was freed, what the chain still holds, and
what came into a dead entry; the last is never freed.

* `held` — how often the entries of the chain hold a pointer;
* `copier_keeps`, `htiCas_owned`, `casLoop_owned` — what the functions of the table do to it;
* `lostClones_eq_nil_iff` — when the loop of `ht_cas` loses no clone;
* `keys_freed_iff_fits` — whole runs.
-/
import Ssr.HashtableKeys
import Ssr.HashtableMoves

open Interleaving Map Migration Hashtable

namespace HashtableKeys

/-! ## What the entries hold -/

section Held

variable {kt : KeyType} {s s' : Ht} {b i j e f p v w : ℕ}

/-- How often an entry with key word `w` and value `v` holds the pointer `p`. -/
def own (p w v : ℕ) : ℕ := (deferKey ⟨w, v⟩).count p

/-- How often table `i` holds `p`. -/
def refs (p : ℕ) (s : Ht) (i : ℕ) : ℕ :=
  ∑ e ∈ Finset.range (2 ^ (s.tables i).scale), own p (s.key i e) (s.val i e)

/-- How often the tables from `b` on hold `p`. -/
def held (p : ℕ) (s : Ht) (b : ℕ) : ℕ := ∑ i ∈ Finset.Ico b s.len, refs p s i

/-- An entry whose value was copied owns no key. -/
@[simp] theorem own_copied (p w : ℕ) : own p w copiedValue = 0 := by
  unfold own deferKey
  rw [if_pos rfl]
  exact List.count_nil

/-- Nor does an empty entry. -/
@[simp] theorem own_empty (p v : ℕ) : own p doesNotExist v = 0 := by
  unfold own deferKey
  split
  · exact List.count_nil
  · rw [if_neg (by simp)]
    exact List.count_nil

/-- Any other entry owns the key it points to. -/
theorem own_eq (hw : w ≠ doesNotExist) (hv : v ≠ copiedValue) (p : ℕ) :
    own p w v = [KeyType.getPtr w].count p := by
  unfold own deferKey
  rw [if_neg hv, if_pos hw]

/-- Only whether the value is `COPIED_VALUE` matters. -/
theorem own_val {v' : ℕ} (hv : v ≠ copiedValue) (hv' : v' ≠ copiedValue) (p w : ℕ) :
    own p w v = own p w v' := by
  by_cases hw : w = doesNotExist
  · rw [hw, own_empty, own_empty]
  · rw [own_eq hw hv, own_eq hw hv']

/-- `hti_defer_free` hands over the keys that the table owns. -/
theorem count_htiDeferFree (p : ℕ) (s : Ht) (i : ℕ) :
    (htiDeferFree (s.tables i)).count p = refs p s i := by
  unfold htiDeferFree
  rw [List.count_flatMap]
  rfl

/-- The sum changes where an entry does. -/
theorem held_change (hlen : s'.len = s.len)
    (hscale : ∀ m, (s'.tables m).scale = (s.tables m).scale)
    (hkey : ∀ m x, ¬ (m = i ∧ x = e) → s'.key m x = s.key m x)
    (hval : ∀ m x, ¬ (m = i ∧ x = e) → s'.val m x = s.val m x) (hbi : b ≤ i) (hi : i < s.len)
    (he : e < 2 ^ (s.tables i).scale) (p : ℕ) :
    held p s' b + own p (s.key i e) (s.val i e)
      = held p s b + own p (s'.key i e) (s'.val i e) := by
  have hother : ∀ m, m ≠ i → refs p s' m = refs p s m := by
    intro m hm
    unfold refs
    rw [hscale]
    refine Finset.sum_congr rfl fun x _ => ?_
    rw [hkey m x fun h => hm h.1, hval m x fun h => hm h.1]
  have hself : refs p s' i + own p (s.key i e) (s.val i e)
      = refs p s i + own p (s'.key i e) (s'.val i e) := by
    unfold refs
    rw [hscale]
    refine sum_change (fun x => own p (s.key i x) (s.val i x))
      (fun x => own p (s'.key i x) (s'.val i x)) (Finset.mem_range.mpr he) fun x hx => ?_
    rw [hkey i x fun h => hx h.2, hval i x fun h => hx h.2]
  have hsum := sum_change (fun m => refs p s m) (fun m => refs p s' m)
    (Finset.mem_Ico.mpr ⟨hbi, hi⟩) hother
  have heq : held p s' b = ∑ m ∈ Finset.Ico b s.len, refs p s' m := by
    unfold held
    rw [hlen]
  unfold held at heq ⊢
  omega

/-- What a store into a value changes about the keys owned. -/
theorem held_setVal (hbi : b ≤ i) (hi : i < s.len) (he : e < 2 ^ (s.tables i).scale) (p v : ℕ) :
    held p (s.setVal i e v) b + own p (s.key i e) (s.val i e)
      = held p s b + own p (s.key i e) v := by
  have hlen : (s.setVal i e v).len = s.len := rfl
  have h := held_change hlen (fun m => Ht.setVal_scale v)
    (fun m x _ => Ht.setVal_key v) (fun m x hne => Ht.setVal_val_of_ne v hne) hbi hi he p
  rwa [Ht.setVal_key, Ht.setVal_val_self] at h

/-- What a store into a key changes about them. -/
theorem held_setKey (hbi : b ≤ i) (hi : i < s.len) (he : e < 2 ^ (s.tables i).scale) (p w : ℕ) :
    held p (s.setKey i e w) b + own p (s.key i e) (s.val i e)
      = held p s b + own p w (s.val i e) := by
  have hlen : (s.setKey i e w).len = s.len := rfl
  have h := held_change hlen (fun m => Ht.setKey_scale w)
    (fun m x hne => Ht.setKey_key_of_ne w hne) (fun m x _ => Ht.setKey_val w) hbi hi he p
  rwa [Ht.setKey_val, Ht.setKey_key_self] at h

/-- A key in a table that does not count. -/
theorem held_setKey_of_lt (hib : i < b) (p w : ℕ) : held p (s.setKey i e w) b = held p s b := by
  refine Finset.sum_congr rfl fun m hm => ?_
  have hne : m ≠ i := (hib.trans_le (Finset.mem_Ico.mp hm).1).ne'
  unfold refs
  rw [Ht.setKey_scale]
  refine Finset.sum_congr rfl fun x _ => ?_
  rw [Ht.setKey_val, Ht.setKey_key_of_ne w fun h => hne h.1]

/-- Counters and the number of clones do not matter. -/
theorem held_congr (hlen : s'.len = s.len) (hscale : ∀ m, (s'.tables m).scale = (s.tables m).scale)
    (htable : ∀ m, (s'.tables m).table = (s.tables m).table) (p b : ℕ) :
    held p s' b = held p s b := by
  unfold held refs Ht.key Ht.val
  simp only [hlen, hscale, htable]

/-- A change of counters changes nothing. -/
theorem held_sameEntries (h : SameEntries s s') (p b : ℕ) : held p s' b = held p s b :=
  held_congr h.len h.scale h.table p b

/-- A new table holds nothing. -/
theorem held_append (hb : b ≤ s.len) (p scale : ℕ) :
    held p (s.append (htiAlloc scale)) b = held p s b := by
  have hlen : (s.append (htiAlloc scale)).len = s.len + 1 := rfl
  have hnew : refs p (s.append (htiAlloc scale)) s.len = 0 := by
    refine Finset.sum_eq_zero fun e _ => ?_
    rw [Ht.append_alloc_key, own_empty]
  have hold : ∀ m ∈ Finset.Ico b s.len, refs p (s.append (htiAlloc scale)) m = refs p s m := by
    intro m hm
    have hne : m ≠ s.len := (Finset.mem_Ico.mp hm).2.ne
    unfold refs
    rw [Ht.append_of_ne _ hne]
    refine Finset.sum_congr rfl fun e _ => ?_
    rw [Ht.append_key _ hne, Ht.append_val _ hne]
  unfold held
  rw [hlen, Finset.sum_Ico_succ_top hb, hnew, add_zero, Finset.sum_congr rfl hold]

/-- The first table and the rest. -/
theorem held_succ (hb : b < s.len) (p : ℕ) : held p s b = refs p s b + held p s (b + 1) := by
  unfold held
  exact Finset.sum_eq_sum_Ico_succ_bot hb _

/-- What an entry owns its table owns. -/
theorem own_le_refs (he : e < 2 ^ (s.tables i).scale) (p : ℕ) :
    own p (s.key i e) (s.val i e) ≤ refs p s i :=
  Finset.single_le_sum (f := fun x => own p (s.key i x) (s.val i x)) (fun _ _ => Nat.zero_le _)
    (Finset.mem_range.mpr he)

/-- What a table owns the chain owns. -/
theorem refs_le_held (hbi : b ≤ i) (hi : i < s.len) (p : ℕ) : refs p s i ≤ held p s b :=
  Finset.single_le_sum (f := fun m => refs p s m) (fun _ _ => Nat.zero_le _)
    (Finset.mem_Ico.mpr ⟨hbi, hi⟩)

/-- Between two calls every key has a value, or its entry is dead. -/
def NoBlank (s : Ht) : Prop := ∀ i e, i < s.len → s.key i e ≠ doesNotExist → s.val i e ≠ doesNotExist

/-- A store of a value into an entry with a key. -/
theorem NoBlank.setVal (h : NoBlank s) (hv : v = doesNotExist → s.key i e = doesNotExist) :
    NoBlank (s.setVal i e v) := by
  intro m x hm hkey
  rw [Ht.setVal_key] at hkey
  by_cases hx : m = i ∧ x = e
  · obtain ⟨rfl, rfl⟩ := hx
    rw [Ht.setVal_val_self]
    exact fun hv' => hkey (hv hv')
  · rw [Ht.setVal_val_of_ne v hx]
    exact h m x hm hkey

/-- A change of counters. -/
theorem NoBlank.sameEntries (h : NoBlank s) (hs : SameEntries s s') : NoBlank s' := by
  intro m x hm hkey
  rw [hs.key_eq] at hkey
  rw [hs.val_eq]
  exact h m x (hs.len ▸ hm) hkey

/-- A new table has no keys. -/
theorem NoBlank.append (h : NoBlank s) (scale : ℕ) : NoBlank (s.append (htiAlloc scale)) := by
  intro m x hm hkey
  by_cases hne : m = s.len
  · subst hne
    exact absurd (Ht.append_alloc_key scale) hkey
  · have hlt : m < s.len := by
      have hm' : m < s.len + 1 := hm
      omega
    rw [Ht.append_key _ hne] at hkey
    rw [Ht.append_val _ hne]
    exact h m x hlt hkey

end Held

/-! ## Copying -/

section Copying

variable {kt : KeyType} {s s' : Ht} {b i j e f fuel keyHash n u : ℕ} {pend : ℕ → ℕ} {did : Bool}

/-- What a function of the table leaves alone: the pointers that the chain holds. -/
def Keeps (b : ℕ) (s s' : Ht) : Prop := (∀ p, held p s' b = held p s b) ∧ NoBlank s'

/-- One change after the other. -/
theorem Keeps.trans {s'' : Ht} (h : Keeps b s s') (h' : Keeps b s' s'') : Keeps b s s'' :=
  ⟨fun p => (h'.1 p).trans (h.1 p), h'.2⟩

/-- Nothing has come into the tables behind for the key that is being copied. -/
def Ahead (kt : KeyType) (s : Ht) (i e j : ℕ) : Prop :=
  ∀ m, j ≤ m → m < s.len → ¬ (s.cell kt (kt.keyOf (s.key i e)) m).Installed

/-- The entry that the copier finds is empty, and without value or killed. -/
theorem empty_here (hc : Copier kt s b i e u j) (ha : Ahead kt s i e j)
    (hf : s.find kt (kt.keyOf (s.key i e)) j = some f) :
    s.key j f = doesNotExist ∧ (s.val j f = doesNotExist ∨ s.val j f = copiedValue) := by
  have hkey : s.key j f = doesNotExist := by
    by_contra hne
    have hnot := ha j le_rfl hc.lt_len
    rw [Ht.cell_of_key hf hne] at hnot
    exact hnot (cellOf_installed _)
  refine ⟨hkey, ?_⟩
  by_contra hv
  obtain ⟨h0, hcop⟩ := not_or.mp hv
  exact hc.inv.val_key j f hc.lt_len h0 hcop hkey

/-- The copier installs its key in an empty entry. -/
theorem withKey_eq (hkey : s.key j f = doesNotExist) (w : ℕ) :
    s.withKey j f w = (s.setKey j f w).addKeyCount j := if_pos hkey

/-- A copied key is owned once more until the old entry is shut. -/
theorem held_withKey (hc : Copier kt s b i e u j) (hkey : s.key j f = doesNotExist)
    (hf : f < 2 ^ (s.tables j).scale) (p : ℕ) :
    held p (s.withKey j f (s.key i e)) b = held p s b + own p (s.key i e) (s.val j f) := by
  have hset := held_setKey (hc.base_le.trans hc.lt.le) hc.lt_len hf p (s.key i e)
  rw [hkey, own_empty, add_zero] at hset
  rw [withKey_eq hkey, held_sameEntries (addKeyCount_entries _ j), hset]

/-- The copier hands its pointer on. -/
theorem copier_lands (hc : Copier kt s b i e u j) (hkey : s.key j f = doesNotExist)
    (hv : s.val j f = doesNotExist) (hf : f < 2 ^ (s.tables j).scale) (hnb : NoBlank s) :
    Keeps b s (((((s.withKey j f (s.key i e)).setVal j f u).setVal i e copiedValue).addCount i
      (2 ^ 64 - 1)).addCount j 1) := by
  have hentries : SameEntries (((s.withKey j f (s.key i e)).setVal j f u).setVal i e copiedValue)
      (((((s.withKey j f (s.key i e)).setVal j f u).setVal i e copiedValue).addCount i
        (2 ^ 64 - 1)).addCount j 1) := by
    have h₁ := addCount_entries (((s.withKey j f (s.key i e)).setVal j f u).setVal i e copiedValue)
      i (2 ^ 64 - 1)
    have h₂ := addCount_entries ((((s.withKey j f (s.key i e)).setVal j f u).setVal i e
      copiedValue).addCount i (2 ^ 64 - 1)) j 1
    exact ⟨h₂.len.trans h₁.len, fun m => (h₂.table m).trans (h₁.table m),
      fun m => (h₂.probe m).trans (h₁.probe m), fun m => (h₂.scale m).trans (h₁.scale m)⟩
  obtain ⟨s₁, hs₁⟩ : ∃ s₁, s₁ = s.withKey j f (s.key i e) := ⟨_, rfl⟩
  have hheld := fun p => held_withKey hc hkey hf p
  rw [← hs₁] at hentries hheld ⊢
  have hbi := hc.base_le
  have hij := hc.lt
  have hjlt := hc.lt_len
  have hw := hc.key_ne
  have hne : ¬ (i = j ∧ e = f) := fun h => hij.ne h.1
  have hlen₁ : s₁.len = s.len := by
    rw [hs₁, withKey_eq hkey]
    rfl
  have hscale₁ : ∀ m, (s₁.tables m).scale = (s.tables m).scale := fun m => by
    rw [hs₁, withKey_eq hkey, (addKeyCount_entries _ j).scale, Ht.setKey_scale]
  have hval₁ : ∀ m x, s₁.val m x = s.val m x := fun m x => by
    rw [hs₁, withKey_eq hkey, (addKeyCount_entries _ j).val_eq, Ht.setKey_val]
  have hkey₁ : ∀ m x, ¬ (m = j ∧ x = f) → s₁.key m x = s.key m x := fun m x h => by
    rw [hs₁, withKey_eq hkey, (addKeyCount_entries _ j).key_eq, Ht.setKey_key_of_ne _ h]
  have hself₁ : s₁.key j f = s.key i e := by
    rw [hs₁, withKey_eq hkey, (addKeyCount_entries _ j).key_eq, Ht.setKey_key_self]
  have hu : u ≠ copiedValue := fun h => hc.legal.not_dead (Or.inl h)
  have htag : tagValue u ≠ copiedValue := fun h => hc.legal.tagValue_not_dead (Or.inl h)
  have h0 : doesNotExist ≠ copiedValue := by decide
  refine ⟨fun p => ?_, NoBlank.sameEntries (fun m x hm hk => ?_) hentries⟩
  · have hput := held_setVal (s := s₁) (b := b) (hbi.trans hij.le) (hlen₁ ▸ hjlt)
      (by rw [hscale₁]; exact hf) p u
    have hkill := held_setVal (s := s₁.setVal j f u) (b := b) hbi (hlen₁ ▸ hij.trans hjlt)
      (by rw [Ht.setVal_scale, hscale₁]; exact hc.entry_lt) p copiedValue
    rw [hval₁, hself₁, hv, own_val h0 hu p] at hput
    rw [Ht.setVal_key, Ht.setVal_val_of_ne u hne, hkey₁ i e hne, hval₁, hc.src,
      own_val htag hu p, own_copied] at hkill
    have hthis := hheld p
    rw [hv, own_val h0 hu p] at hthis
    rw [held_sameEntries hentries]
    omega
  · rw [Ht.setVal_key, Ht.setVal_key] at hk
    by_cases hx : m = i ∧ x = e
    · obtain ⟨rfl, rfl⟩ := hx
      rw [Ht.setVal_val_self]
      decide
    · rw [Ht.setVal_val_of_ne _ hx]
      by_cases hx' : m = j ∧ x = f
      · obtain ⟨rfl, rfl⟩ := hx'
        rw [Ht.setVal_val_self]
        exact hc.legal.1
      · rw [Ht.setVal_val_of_ne _ hx', hval₁]
        rw [hkey₁ m x hx'] at hk
        exact hnb m x (hlen₁ ▸ hm) hk

/-- The copier puts its key into an entry that a copy has killed, and goes on. -/
theorem copier_goes_on (hkt : kt.Lawful) (hc : Copier kt s b i e u j) (ha : Ahead kt s i e j)
    (hnb : NoBlank s) (hf : s.find kt (kt.keyOf (s.key i e)) j = some f)
    (hkey : s.key j f = doesNotExist) (hv : s.val j f = copiedValue) :
    Copier kt (s.withKey j f (s.key i e)) b i e u (j + 1)
      ∧ Ahead kt (s.withKey j f (s.key i e)) i e (j + 1)
      ∧ (s.withKey j f (s.key i e)).key i e = s.key i e
      ∧ Keeps b s (s.withKey j f (s.key i e)) := by
  have hw := hc.withKey hkt hf
  obtain ⟨hc₁, hkey₁⟩ := hc.of_withKey hw
  have hnext : j + 1 < s.len := by
    refine hc.inv.next j f hc.lt_len ?_
    rw [hv]
    exact isTagged_tagValue _
  have hv₁ : (s.withKey j f (s.key i e)).val j f = copiedValue := (hw.vals.val j f).trans hv
  refine ⟨hc₁.next ?_ ?_, fun m hm hmlt => ?_, hkey₁, fun p => ?_, fun m x hm hk => ?_⟩
  · rw [hw.vals.len]
    exact hnext
  · rw [hkey₁, Ht.cell_of_key hw.find hw.key_ne, hv₁, cellOf_copied]
    trivial
  · rw [hw.vals.len] at hmlt
    rw [hkey₁, hw.cell_eq _ m (by omega)]
    exact ha m (by omega) hmlt
  · rw [held_withKey hc hkey (hc.inv.find_lt hc.lt_len hf), hv, own_copied, add_zero]
  · by_cases hx : m = j ∧ x = f
    · obtain ⟨rfl, rfl⟩ := hx
      rw [hv₁]
      decide
    · rw [withKey_eq hkey, (addKeyCount_entries _ j).key_eq, Ht.setKey_key_of_ne _ hx] at hk
      rw [hw.vals.val]
      exact hnb m x (hw.vals.len ▸ hm) hk

/-- **A copy that was begun** hands its pointer on once: to the first table whose entry for
the key is alive. -/
theorem copier_keeps (hkt : kt.Lawful) : ∀ {fuel : ℕ} {s : Ht} {j keyHash : ℕ},
    Copier kt s b i e u j → Ahead kt s i e j → NoBlank s →
    (keyHash = 0 ∨ keyHash = kt.hash (kt.keyOf (s.key i e))) →
    htiCopyEntry kt fuel s i e keyHash j = some (did, s') → Keeps b s s' := by
  intro fuel
  induction fuel with
  | zero =>
    intro s j keyHash _ _ _ _ hrun
    cases hrun
  | succ fuel ih =>
    intro s j keyHash hc ha hnb hh hrun
    rw [htiCopyEntry_moving hc.legal hc.src hh] at hrun
    rcases hf : s.find kt (kt.keyOf (s.key i e)) j with _ | f
    · -- no room in table `j`
      rw [hf] at hrun
      simp only at hrun
      by_cases hlt : j + 1 < s.len
      · rw [if_pos hlt] at hrun
        have hskip : (s.cell kt (kt.keyOf (s.key i e)) j).Skipped := by
          rw [Ht.cell_of_none hf]
          trivial
        exact ih (hc.next hlt hskip) (fun m hm => ha m (by omega)) hnb (Or.inr rfl) hrun
      · rw [if_neg hlt] at hrun
        obtain ⟨scale, hscale, heq⟩ := htiStartCopy_eq hlt
        have hjlt := hc.lt_len
        have hlast : s.len = j + 1 := by omega
        have hil : i ≠ s.len := (hc.lt.trans hjlt).ne
        have hkey : (s.append (htiAlloc scale)).key i e = s.key i e := Ht.append_key _ hil
        rw [heq] at hrun
        have hahead : Ahead kt (s.append (htiAlloc scale)) i e (j + 1) := by
          intro m hm hmlt
          have hml : m = s.len := by
            have hmlt' : m < s.len + 1 := hmlt
            omega
          subst hml
          obtain ⟨f, hf'⟩ := @Ht.append_alloc_find kt s
            (kt.keyOf ((s.append (htiAlloc scale)).key i e)) scale
          rw [Ht.cell_of_empty hf' (Ht.append_alloc_key scale)]
          exact id
        have hrest := ih (hc.append hlast hf ((hc.inv.scale j hjlt).trans hscale)) hahead
          (hnb.append scale) (Or.inr (by rw [hkey])) hrun
        exact ⟨fun p => (hrest.1 p).trans (held_append (by have := hc.inv.base_lt; omega) p scale),
          hrest.2⟩
    · rw [hf] at hrun
      obtain ⟨hkey, hv⟩ := empty_here hc ha hf
      have hval : (s.withKey j f (s.key i e)).val j f = s.val j f := by
        rw [withKey_eq hkey, (addKeyCount_entries _ j).val_eq, Ht.setKey_val]
      rcases hv with hv | hv
      · have hne : s.val j f ≠ copiedValue := by
          rw [hv]
          decide
        simp only [hval, if_neg hne, if_pos hv, Option.some.injEq, Prod.mk.injEq] at hrun
        obtain ⟨-, rfl⟩ := hrun
        exact copier_lands hc hkey hv (hc.inv.find_lt hc.lt_len hf) hnb
      · simp only [hval, if_pos hv] at hrun
        obtain ⟨hc₁, ha₁, hkey₁, hkeeps⟩ := copier_goes_on hkt hc ha hnb hf hkey hv
        exact hkeeps.trans (ih hc₁ ha₁ hkeeps.2 (Or.inr (by rw [hkey₁])) hrun)

/-- Killing an empty entry and burying a removed value keep what the chain holds. -/
theorem keeps_setVal (hnb : NoBlank s) (hbi : b ≤ i) (hi : i < s.len)
    (he : e < 2 ^ (s.tables i).scale) {v : ℕ}
    (hown : ∀ p, own p (s.key i e) v = own p (s.key i e) (s.val i e)) (hv : v ≠ doesNotExist) :
    Keeps b s (s.setVal i e v) := by
  refine ⟨fun p => ?_, hnb.setVal fun h => absurd h hv⟩
  have h := held_setVal hbi hi he p v
  rw [hown p] at h
  exact Nat.add_right_cancel h

/-- **Copying an entry** keeps what the chain holds. -/
theorem htiCopyEntry_keeps (hkt : kt.Lawful) (hi : Inv kt s b) (hb : Books s b n pend none)
    (hnb : NoBlank s) (hbi : b ≤ i) (hlt : i + 1 < s.len) (he : e < 2 ^ (s.tables i).scale)
    (hrun : htiCopyEntry kt fuel s i e 0 (i + 1) = some (did, s')) : Keeps b s s' := by
  obtain ⟨fuel, rfl⟩ : ∃ n, fuel = n + 1 := by
    cases fuel with
    | zero => cases hrun
    | succ n => exact ⟨n, rfl⟩
  have hilt : i < s.len := by omega
  have hdead : Dead (s.val i e) → Keeps b s s' := by
    intro hd
    simp only [htiCopyEntry, if_pos hd] at hrun
    cases hrun
    exact ⟨fun _ => rfl, hnb⟩
  rcases hi.stored i e hilt with hv | hv | hl | hd | ⟨u, hl, hv⟩
  · -- an entry without value has no key
    have hkey : s.key i e = doesNotExist := by
      by_contra hne
      exact hnb i e hilt hne hv
    have hnd : ¬ Dead (s.val i e) := by
      rw [hv]
      decide
    simp only [htiCopyEntry, if_neg hnd, if_pos hv] at hrun
    cases hrun
    refine keeps_setVal hnb hbi hilt he (fun p => ?_) (by decide)
    rw [hkey, own_empty, own_empty]
  · have hnd : ¬ Dead (s.val i e) := by
      rw [hv]
      decide
    have h0 : s.val i e ≠ doesNotExist := by
      rw [hv]
      decide
    simp only [htiCopyEntry, if_neg hnd, if_neg h0, if_pos hv] at hrun
    cases hrun
    refine keeps_setVal hnb hbi hilt he (fun p => ?_) ?_
    · rw [hv]
      exact own_val (by decide) (by decide) p _
    · rw [hv]
      decide
  · -- a value is tagged and then moved
    have hkey : s.key i e ≠ doesNotExist := hi.val_key i e hilt hl.1 fun h => hl.not_dead (Or.inl h)
    obtain ⟨hi₁, -⟩ := hi.shut he hlt (Or.inr (Or.inr ⟨hl, rfl⟩))
    have hkeeps : Keeps b s (s.setVal i e (tagValue (s.val i e))) := by
      refine keeps_setVal hnb hbi hilt he (fun p => ?_) fun h => ?_
      · exact own_val (fun h => hl.tagValue_not_dead (Or.inl h)) (fun h => hl.not_dead (Or.inl h)) p _
      · have ht := isTagged_tagValue (s.val i e)
        rw [h] at ht
        exact absurd ht (by decide)
    have hc : Copier kt (s.setVal i e (tagValue (s.val i e))) b i e (s.val i e) (i + 1) :=
      ⟨hi₁, hl, Ht.setVal_val_self _, by rw [Ht.setVal_scale]; exact he, Nat.lt_succ_self i, hlt,
        fun m hm hmj => by omega⟩
    have hahead : Ahead kt (s.setVal i e (tagValue (s.val i e))) i e (i + 1) := by
      intro m hm hmlt
      rw [Ht.setVal_key, Ht.cell_setVal _ fun h => by omega]
      have hcell : s.cell kt (kt.keyOf (s.key i e)) i = .live (s.val i e) := by
        rw [Ht.cell_of_key (hi.found i e hilt hkey) hkey]
        exact cellOf_live hl
      refine (hi.column (kt.keyOf (s.key i e))).uninstalled hbi (i := i) ?_ m hm hmlt
      rw [hcell]
      rintro (h | h)
      · cases h
      · exact h
    rw [htiCopyEntry_legal hl rfl] at hrun
    exact hkeeps.trans (copier_keeps hkt hc hahead hkeeps.2 (Or.inl rfl) hrun)
  · exact hdead hd
  · have ht : IsTagged (s.val i e) := by
      rw [hv]
      exact isTagged_tagValue u
    exact hdead ((hb.quiet i e hbi hilt ht).resolve_right (Option.some_ne_none _).symm)

/-- The loop of `hti_help_copy`. -/
theorem htiCopyEntries_keeps (hkt : kt.Lawful) (hn : n < 2 ^ 64) (hbi : b ≤ i) {m num : ℕ} :
    ∀ {s : Ht} {e acc : ℕ}, Inv kt s b → Books s b n (pendAt i acc) none → NoBlank s →
      i + 1 < s.len → e + m ≤ 2 ^ (s.tables i).scale →
      htiCopyEntries kt fuel i s e m acc = some (num, s') → Keeps b s s' := by
  induction m with
  | zero =>
    intro s e acc _ _ hnb _ _ hrun
    cases hrun
    exact ⟨fun _ => rfl, hnb⟩
  | succ m ih =>
    intro s e acc hi hb hnb hlt he hrun
    simp only [htiCopyEntries] at hrun
    rcases hstep : htiCopyEntry kt fuel s i e 0 (i + 1) with _ | ⟨did, s₁⟩
    · rw [hstep] at hrun
      cases hrun
    · rw [hstep] at hrun
      have hkeeps := htiCopyEntry_keeps hkt hi hb hnb hbi hlt (by omega) hstep
      have hp : ∀ m, s.len ≤ m → pendAt i acc m = 0 := fun m hm =>
        Function.update_of_ne (by omega) _ _
      obtain ⟨fuel', did', s₁', h₁, hc⟩ :=
        htiCopyEntry_spec (e := e) hkt hi hn hb hp hbi hlt (by omega)
      have heq := (htiCopyEntry_mono (le_max_left fuel fuel') hstep).symm.trans
        (htiCopyEntry_mono (le_max_right fuel fuel') h₁)
      simp only [Option.some.injEq, Prod.mk.injEq] at heq
      obtain ⟨rfl, rfl⟩ := heq
      have hb₁ := hc.books
      rw [pendAt_add] at hb₁
      have hlen := hc.len
      exact hkeeps.trans (ih hc.inv hb₁ hkeeps.2 (by omega)
        (by rw [hc.scale i (by omega)]; omega) hrun)

/-- **Helping a copy** keeps what the chain holds. -/
theorem htiHelpCopy_keeps (hkt : kt.Lawful) (hn : n < 2 ^ 64) (hbi : b ≤ i) (hi : Inv kt s b)
    (hb : Books s b n (fun _ => 0) none) (hnb : NoBlank s) (hlt : i + 1 < s.len)
    (hrun : htiHelpCopy kt fuel s i = some (did, s')) : Keeps b s s' := by
  by_cases htotal : (s.tables i).numEntriesCopied = 2 ^ (s.tables i).scale
  · simp only [htiHelpCopy, if_pos htotal] at hrun
    cases hrun
    exact ⟨fun _ => rfl, hnb⟩
  · obtain ⟨s₁, x, m, hent, -, hb₁, hx, heq⟩ := htiHelpCopy_chunk hi hb (by omega) htotal
    obtain ⟨hi₁, -⟩ := hi.sameEntries hent
    have hkeeps₁ : Keeps b s s₁ := ⟨fun p => held_sameEntries hent p b, hnb.sameEntries hent⟩
    rw [heq] at hrun
    obtain ⟨⟨num, s₂⟩, hcop, hend⟩ := Option.map_eq_some_iff.mp hrun
    have hkeeps₂ := hkeeps₁.trans (htiCopyEntries_keeps hkt hn hbi hi₁ hb₁ hkeeps₁.2
      (by rw [hent.len]; exact hlt) (by rw [hent.scale]; exact hx) hcop)
    by_cases hnum : num = 0
    · simp only [if_pos hnum, Prod.mk.injEq] at hend
      obtain ⟨-, rfl⟩ := hend
      exact hkeeps₂
    · simp only [if_neg hnum, Prod.mk.injEq] at hend
      obtain ⟨-, rfl⟩ := hend
      have hent' := addCopied_entries s₂ i num
      exact hkeeps₂.trans ⟨fun p => held_sameEntries hent' p b, hkeeps₂.2.sameEntries hent'⟩

end Copying

/-! ## The calls -/

section Calls

variable {d : Datatype} {s s' : Ht} {b c i e fuel key expected new r : ℕ} {m : List (ℕ × ℕ)}

/-- All entries of the tables before table `c` are dead. -/
def Retired (s : Ht) (c : ℕ) : Prop := ∀ i e, i < c → e < 2 ^ (s.tables i).scale → Dead (s.val i e)

/-- The clones that were made on the way from `s` to `s'`. -/
def clonesOf (d : Datatype) (key : ℕ) (s s' : Ht) : List ℕ :=
  (List.range' s.clones (s'.clones - s.clones)).map fun n => d.clone n key

/-- No clone was made. -/
theorem clonesOf_self (h : s'.clones = s.clones) : clonesOf d key s s' = [] := by
  unfold clonesOf
  rw [h, Nat.sub_self]
  rfl

/-- One clone was made. -/
theorem clonesOf_succ (h : s'.clones = s.clones + 1) :
    clonesOf d key s s' = [d.clone s.clones key] := by
  unfold clonesOf
  rw [h, Nat.add_sub_cancel_left]
  rfl

/-- Clones made one after the other. -/
theorem clonesOf_trans {s'' : Ht} (h : s.clones ≤ s'.clones) (h' : s'.clones ≤ s''.clones) :
    clonesOf d key s s'' = clonesOf d key s s' ++ clonesOf d key s' s'' := by
  unfold clonesOf
  rw [← List.map_append]
  congr 1
  obtain ⟨x, hx⟩ := Nat.exists_eq_add_of_le h
  obtain ⟨y, hy⟩ := Nat.exists_eq_add_of_le h'
  rw [hy, hx, Nat.add_assoc, Nat.add_sub_cancel_left, Nat.add_sub_cancel_left, ← Nat.add_assoc,
    Nat.add_sub_cancel_left, List.range'_append_1]

/-- What is held or has been lost is what was held, or made. -/
structure Owned (d : Datatype) (key c : ℕ) (lost : List ℕ) (s s' : Ht) : Prop where
  clones : s.clones ≤ s'.clones
  conserved : ∀ p, held p s' c + lost.count p = held p s c + (clonesOf d key s s').count p

/-- A change that owns what was owned before. -/
theorem Owned.of_held (hc : s'.clones = s.clones) (h : ∀ p, held p s' c = held p s c) :
    Owned d key c [] s s' :=
  ⟨hc.ge, fun p => by rw [clonesOf_self hc, h p]⟩

/-- One change after the other. -/
theorem Owned.trans {s'' : Ht} {l l' : List ℕ} (h : Owned d key c l s s')
    (h' : Owned d key c l' s' s'') : Owned d key c (l ++ l') s s'' := by
  refine ⟨h.clones.trans h'.clones, fun p => ?_⟩
  have h₁ := h.conserved p
  have h₂ := h'.conserved p
  rw [clonesOf_trans h.clones h'.clones, List.count_append, List.count_append]
  omega

/-- No key is without a value, but for entry `e` of table `i`. -/
def NoBlankBut (s : Ht) (i e : ℕ) : Prop :=
  ∀ m x, ¬ (m = i ∧ x = e) → m < s.len → s.key m x ≠ doesNotExist → s.val m x ≠ doesNotExist

/-- A store over an entry that is alive keeps the pointer of the entry. -/
theorem owned_store {v : ℕ} (hnb : NoBlankBut s i e) (hr : Retired s c) (hlt : i < s.len)
    (he : e < 2 ^ (s.tables i).scale) (ht : ¬ IsTagged (s.val i e)) (hv : ¬ IsTagged v)
    (hv0 : v ≠ doesNotExist) (hent : SameEntries (s.setVal i e v) s')
    (hclones : s'.clones = s.clones) :
    Owned d key c [] s s' ∧ NoBlank s' ∧ Retired s' c := by
  have hci : c ≤ i := by
    by_contra hic
    exact ht (hr i e (not_le.mp hic) he).isTagged
  have hcop : ∀ x, ¬ IsTagged x → x ≠ copiedValue := fun x hx h => hx (h ▸ isTagged_tagValue _)
  refine ⟨Owned.of_held hclones fun p => ?_, NoBlank.sameEntries (fun m x hm hk => ?_) hent,
    fun m x hm hx => ?_⟩
  · have h := held_setVal hci hlt he p v
    rw [own_val (hcop v hv) (hcop _ ht) p] at h
    rw [held_sameEntries hent]
    exact Nat.add_right_cancel h
  · rw [Ht.setVal_key] at hk
    by_cases hx : m = i ∧ x = e
    · obtain ⟨rfl, rfl⟩ := hx
      rw [Ht.setVal_val_self]
      exact hv0
    · rw [Ht.setVal_val_of_ne v hx]
      exact hnb m x hx hm hk
  · rw [hent.scale, Ht.setVal_scale] at hx
    rw [hent.val_eq, Ht.setVal_val_of_ne v fun h => by omega]
    exact hr m x hm hx

/-- `hti_cas` at an entry with a key: nothing is stored, or a value over a value. -/
theorem htiCas_stores (hf : s.find (.typed d) key i = some e) (hkey : s.key i e ≠ doesNotExist)
    (hquiet : IsTagged (s.val i e) → Dead (s.val i e)) (hnew : new = doesNotExist ∨ Legal new)
    (hrun : htiCas (.typed d) fuel s i key (d.hash key) expected new = some (r, s')) :
    s'.clones = s.clones ∧
      ((s' = s ∧ (s.val i e = doesNotExist →
          (expected ≠ expectWhatever ∧ expected ≠ expectDoesNotExist) ∨ new = doesNotExist))
        ∨ (¬ IsTagged (s.val i e)
          ∧ ∃ v, ¬ IsTagged v ∧ v ≠ doesNotExist ∧ SameEntries (s.setVal i e v) s')) := by
  unfold htiCas at hrun
  rw [show (s.tables i).lookup (.typed d) key (d.hash key) = some e from hf] at hrun
  simp only [if_neg hkey, if_neg fun hc : _ ∧ _ => hkey hc.1] at hrun
  by_cases ht : IsTagged (s.val i e)
  · simp only [if_pos ht, if_pos (hquiet ht), Option.some.injEq, Prod.mk.injEq] at hrun
    obtain ⟨-, rfl⟩ := hrun
    refine ⟨rfl, Or.inl ⟨rfl, fun h0 => ?_⟩⟩
    rw [h0] at ht
    exact absurd ht (by decide)
  · simp only [if_neg ht] at hrun
    by_cases htest : expected ≠ expectWhatever ∧ expected ≠ s.val i e
        ∧ expected ≠ if s.val i e ≠ tombstone ∧ s.val i e ≠ doesNotExist then expectExists
          else expectDoesNotExist
    · rw [if_pos htest] at hrun
      cases hrun
      refine ⟨rfl, Or.inl ⟨rfl, fun h0 => Or.inl ⟨htest.1, ?_⟩⟩⟩
      rw [h0] at htest
      exact htest.2.1
    · rw [if_neg htest] at hrun
      by_cases hnoop : (new = doesNotExist
          ∧ ¬ (s.val i e ≠ tombstone ∧ s.val i e ≠ doesNotExist)) ∨ s.val i e = new
      · rw [if_pos hnoop] at hrun
        cases hrun
        refine ⟨rfl, Or.inl ⟨rfl, fun h0 => Or.inr ?_⟩⟩
        rcases hnoop with h | h
        · exact h.1
        · exact h.symm.trans h0
      · rw [if_neg hnoop] at hrun
        obtain ⟨-, rfl⟩ := Prod.mk.inj (Option.some.inj hrun)
        obtain ⟨hword, -, htag⟩ := stored_word hnew
        refine ⟨?_, Or.inr ⟨ht, _, htag, ?_, store_entries s i e new _⟩⟩
        · split_ifs <;> rfl
        · rcases hword with h | h
          · rw [h]
            decide
          · exact h.1

/-- The state after `hti_cas` has put a clone into entry `e` of table `i`. -/
def cloneAt (d : Datatype) (key : ℕ) (s : Ht) (i e : ℕ) : Ht :=
  ((s.setKey i e ((KeyType.typed d).newKey s.clones key (d.hash key))).cloned).addKeyCount i

/-- The pointer in a new key word is the clone. -/
theorem getPtr_newKey (hd : d.Lawful) (n key keyHash : ℕ) :
    KeyType.getPtr ((KeyType.typed d).newKey n key keyHash) = d.clone n key := by
  show (keyHash / 2 ^ 16 * 2 ^ 48 + d.clone n key) % 2 ^ 48 = d.clone n key
  exact Nat.mul_add_mod_of_lt (hd.clone_lt n key)

/-- The other keys are as they were. -/
theorem cloneAt_key_of_ne {m x : ℕ} (hx : ¬ (m = i ∧ x = e)) :
    (cloneAt d key s i e).key m x = s.key m x := by
  unfold cloneAt
  rw [(addKeyCount_entries _ i).key_eq]
  exact Ht.setKey_key_of_ne _ hx

/-- So are all values. -/
theorem cloneAt_val (m x : ℕ) : (cloneAt d key s i e).val m x = s.val m x := by
  unfold cloneAt
  rw [(addKeyCount_entries _ i).val_eq]
  exact Ht.setKey_val _

/-- So are the scales. -/
theorem cloneAt_scale (m : ℕ) : ((cloneAt d key s i e).tables m).scale = (s.tables m).scale := by
  unfold cloneAt
  rw [(addKeyCount_entries _ i).scale]
  exact Ht.setKey_scale _

/-- A clone comes into an entry that is dead, and is lost, or one that is alive. -/
theorem owned_clone (hd : d.Lawful) (hr : Retired s c) (hlt : i < s.len)
    (he : e < 2 ^ (s.tables i).scale) (hkey : s.key i e = doesNotExist)
    (hne : (KeyType.typed d).newKey s.clones key (d.hash key) ≠ doesNotExist)
    (hv : s.val i e = copiedValue ∨ s.val i e = doesNotExist) :
    Owned d key c (if s.val i e = copiedValue then [d.clone s.clones key] else []) s
      (cloneAt d key s i e) := by
  have hentries : ∀ p, held p (cloneAt d key s i e) c
      = held p (s.setKey i e ((KeyType.typed d).newKey s.clones key (d.hash key))) c := fun p =>
    held_sameEntries (addKeyCount_entries _ i) p c
  refine ⟨Nat.le_succ _, fun p => ?_⟩
  rw [clonesOf_succ rfl, hentries p]
  rcases hv with hv | hv
  · rw [if_pos hv]
    by_cases hci : c ≤ i
    · have h := held_setKey hci hlt he p ((KeyType.typed d).newKey s.clones key (d.hash key))
      rw [hkey, hv, own_empty, own_copied] at h
      omega
    · rw [held_setKey_of_lt (not_le.mp hci)]
  · rw [if_neg (by rw [hv]; decide)]
    have hci : c ≤ i := by
      by_contra hic
      have hdead := hr i e (not_le.mp hic) he
      rw [hv] at hdead
      exact absurd hdead (by decide)
    have h := held_setKey hci hlt he p ((KeyType.typed d).newKey s.clones key (d.hash key))
    rw [hkey, hv, own_empty, own_eq hne (by decide), getPtr_newKey hd] at h
    exact h

/-- The weaker form, for all entries but one. -/
theorem NoBlank.but (h : NoBlank s) (i e : ℕ) : NoBlankBut s i e := fun m x _ => h m x

/-- The new key may be without a value. -/
theorem NoBlankBut.cloneAt (h : NoBlankBut s i e) : NoBlankBut (cloneAt d key s i e) i e := by
  intro m x hx hm hk
  rw [cloneAt_key_of_ne hx] at hk
  rw [cloneAt_val]
  exact h m x hx hm hk

/-- Retired tables stay retired. -/
theorem Retired.cloneAt (h : Retired s c) : Retired (cloneAt d key s i e) c := by
  intro m x hm hx
  rw [cloneAt_scale] at hx
  rw [cloneAt_val]
  exact h m x hm hx

/-- They stay so when a table is appended. -/
theorem Retired.append (h : Retired s c) (hc : c ≤ s.len) (scale : ℕ) :
    Retired (s.append (htiAlloc scale)) c := by
  intro m x hm hx
  have hne : m ≠ s.len := by omega
  rw [Ht.append_of_ne _ hne] at hx
  rw [Ht.append_val _ hne]
  exact h m x hm hx

/-- When `hti_cas` puts a clone into a dead entry. -/
theorem installsDead_iff (hf : s.find (.typed d) key i = some e) :
    InstallsDead (.typed d) s i key expected new
      ↔ ¬ ((expected ≠ expectWhatever ∧ expected ≠ expectDoesNotExist) ∨ new = doesNotExist)
        ∧ s.key i e = doesNotExist ∧ s.val i e = copiedValue := by
  unfold InstallsDead KilledAt
  rw [hf]
  simp only [Option.mem_def, Option.some.injEq, exists_eq_left']
  tauto

/-- **`hti_cas`** makes a clone for an empty entry, which is lost when the entry is dead. -/
theorem htiCas_owned (hd : d.Lawful) (h : Refines (.typed d) s b m) (hbi : b ≤ i) (hi : i < s.len)
    (hk : key ≠ 0) (hnew : new = doesNotExist ∨ Legal new)
    (hpass : ∀ x, b ≤ x → x < i → (s.cell (.typed d) key x).Passed) (hnb : NoBlank s)
    (hr : Retired s c) (hc : c ≤ s.len)
    (hrun : htiCas (.typed d) fuel s i key (d.hash key) expected new = some (r, s')) :
    Owned d key c (if InstallsDead (.typed d) s i key expected new then [d.clone s.clones key]
        else []) s s' ∧ NoBlank s' ∧ Retired s' c := by
  have hquiet : ∀ e, IsTagged (s.val i e) → Dead (s.val i e) := fun e ht =>
    (h.books.quiet i e hbi hi ht).resolve_right nofun
  rcases hf : s.find (.typed d) key i with _ | e
  · -- no room: a new table, perhaps
    have hno : ¬ InstallsDead (.typed d) s i key expected new := by
      rintro ⟨-, -, x, hx, -⟩
      rw [hf] at hx
      cases hx
    unfold htiCas at hrun
    rw [show (s.tables i).lookup (.typed d) key (d.hash key) = none from hf] at hrun
    obtain ⟨-, rfl⟩ := Prod.mk.inj (Option.some.inj hrun)
    rw [if_neg hno]
    by_cases hlast : i + 1 < s.len
    · rw [if_pos hlast]
      exact ⟨Owned.of_held rfl fun _ => rfl, hnb, hr⟩
    · rw [if_neg hlast]
      obtain ⟨scale, -, heq⟩ := htiStartCopy_eq hlast
      rw [heq]
      exact ⟨Owned.of_held rfl fun p => held_append hc p scale, hnb.append scale,
        hr.append hc scale⟩
  · have he := h.inv.find_lt hi hf
    simp only [installsDead_iff hf]
    by_cases hkey : s.key i e = doesNotExist
    · by_cases hstop : (expected ≠ expectWhatever ∧ expected ≠ expectDoesNotExist)
          ∨ new = doesNotExist
      · rw [if_neg fun h => h.1 hstop]
        unfold htiCas at hrun
        rw [show (s.tables i).lookup (.typed d) key (d.hash key) = some e from hf] at hrun
        simp only [if_pos (And.intro hkey hstop)] at hrun
        cases hrun
        exact ⟨Owned.of_held rfl fun _ => rfl, hnb, hr⟩
      · -- a clone is made
        have hval : s.val i e = copiedValue ∨ s.val i e = doesNotExist := by
          by_contra hv
          exact h.inv.val_key i e hi (fun h0 => hv (Or.inr h0)) (fun hcop => hv (Or.inl hcop)) hkey
        have hw : WithKey (.typed d) b key i e s (cloneAt d key s i e) :=
          WithKey.clone hd h.inv hi hk hf hkey hpass
        have hkt : (KeyType.typed d).Lawful := hd
        have hgood := (KeyType.newKey_good hkt s.clones hk).1.1
        have howned := owned_clone hd hr hi he hkey hgood hval
        have hrun' : htiCas (.typed d) fuel (cloneAt d key s i e) i key (d.hash key) expected new
            = some (r, s') := (htiCas_install hf hkey hstop hw).symm.trans hrun
        obtain ⟨hclones, ⟨rfl, hstop'⟩ | ⟨ht, v, hv, hv0, hent⟩⟩ := htiCas_stores hw.find hw.key_ne
          (by rw [cloneAt_val]; exact hquiet e) hnew hrun'
        · have hcop : s.val i e = copiedValue := hval.resolve_right fun h0 =>
            hstop (hstop' ((cloneAt_val i e).trans h0))
          rw [if_pos hcop] at howned
          rw [if_pos ⟨hstop, hkey, hcop⟩]
          refine ⟨howned, fun m x hm hx => ?_, hr.cloneAt⟩
          by_cases hhere : m = i ∧ x = e
          · obtain ⟨rfl, rfl⟩ := hhere
            rw [cloneAt_val, hcop]
            decide
          · exact (hnb.but i e).cloneAt m x hhere hm hx
        · have hblank : s.val i e = doesNotExist := by
            rw [cloneAt_val] at ht
            exact hval.resolve_left fun hcop => ht (hcop ▸ isTagged_tagValue _)
          have hne : s.val i e ≠ copiedValue := by
            rw [hblank]
            decide
          rw [if_neg hne] at howned
          rw [if_neg fun h => hne h.2.2]
          have hstore : Owned d key c [] (cloneAt d key s i e) s' ∧ NoBlank s' ∧ Retired s' c :=
            owned_store (hnb.but i e).cloneAt hr.cloneAt hi (by rw [cloneAt_scale]; exact he) ht hv
              hv0 hent hclones
          exact ⟨howned.trans hstore.1, hstore.2⟩
    · rw [if_neg fun h => hkey h.2.1]
      obtain ⟨hclones, ⟨rfl, -⟩ | ⟨ht, v, hv, hv0, hent⟩⟩ := htiCas_stores hf hkey (hquiet e) hnew
        hrun
      · exact ⟨Owned.of_held rfl fun _ => rfl, hnb, hr⟩
      · exact owned_store (hnb.but i e) hr hi he ht hv hv0 hent hclones

/-- **The loop of `ht_cas` and `ht_remove`** does so in every table that it comes to. -/
theorem casLoop_owned (hd : d.Lawful) (hk : key ≠ 0 ∧ key < 2 ^ 64) (hexp : Expectation expected)
    (hnew : new = doesNotExist ∨ Legal new) :
    ∀ {fuel : ℕ} {s : Ht} {i : ℕ}, Refines (.typed d) s b m → b ≤ i → i < s.len →
      (∀ x, b ≤ x → x < i → (s.cell (.typed d) key x).Passed) → NoBlank s → Retired s c →
      c ≤ s.len → casLoop (.typed d) fuel s i key expected new = some (r, s') →
      Owned d key c (lostClones d fuel s i key expected new) s s' ∧ NoBlank s'
        ∧ Refines (.typed d) s' b (mapCas (.typed d) m key expected new) ∧ Frame s s' := by
  intro fuel
  induction fuel with
  | zero =>
    intro s i _ _ _ _ _ _ _ hrun
    cases hrun
  | succ fuel ih =>
    intro s i h hbi hi hpass hnb hr hc hrun
    have hkt : (KeyType.typed d).Lawful := hd
    obtain ⟨⟨old, s₁⟩, hstep, hans⟩ := htiCas_spec hkt h hbi hi hk hexp hnew hpass
    have hstep' : htiCas (.typed d) fuel s i key (d.hash key) expected new = some (old, s₁) :=
      hstep fuel
    obtain ⟨howned, hnb₁, hr₁⟩ := htiCas_owned hd h hbi hi hk.1 hnew hpass hnb hr hc hstep'
    simp only [casLoop, hstep fuel] at hrun
    simp only [lostClones, hstep']
    rcases hans with ha | hdef
    · have hne : old ≠ copiedValue := ha.ne_copied
      rw [if_neg hne] at hrun
      cases hrun
      rw [if_neg hne, List.append_nil]
      exact ⟨howned, hnb₁, ha.refines, ha.frame⟩
    · have hcop : old = copiedValue := hdef.copied
      rw [if_pos hcop] at hrun
      rw [if_pos hcop]
      obtain ⟨hrest, hnb', href, hframe⟩ := ih hdef.refines (by omega) hdef.next hdef.passed hnb₁
        hr₁ (hc.trans hdef.frame.len) hrun
      exact ⟨howned.trans hrest, hnb', href, hdef.frame.trans hframe⟩

/-- `hti_cas` leaves the call to the next table where that is passed by, and where it loses
its clone. -/
theorem htiCas_copied_iff (hd : d.Lawful) (h : Refines (.typed d) s b m) (hbi : b ≤ i)
    (hi : i < s.len) (hk : key ≠ 0 ∧ key < 2 ^ 64) (hexp : Expectation expected)
    (hnew : new = doesNotExist ∨ Legal new)
    (hpass : ∀ x, b ≤ x → x < i → (s.cell (.typed d) key x).Passed)
    (hrun : htiCas (.typed d) fuel s i key (d.hash key) expected new = some (r, s')) :
    (r = copiedValue ∧ InstallsDead (.typed d) s i key expected new)
      ∨ (r = copiedValue ∧ ¬ InstallsDead (.typed d) s i key expected new
        ∧ PassesBy (.typed d) s i key
        ∧ (s' = s ∨ ∃ scale, i + 1 = s.len ∧ s' = s.append (htiAlloc scale)))
      ∨ (r ≠ copiedValue ∧ ¬ InstallsDead (.typed d) s i key expected new
        ∧ ¬ PassesBy (.typed d) s i key) := by
  have hkt : (KeyType.typed d).Lawful := hd
  have hanswer : ∀ r', (∀ fuel, htiCas (.typed d) fuel s i key (d.hash key) expected new = some r')
      → Answered (.typed d) b key expected new m s r' → r ≠ copiedValue := by
    intro r' hr' ha
    obtain rfl := Option.some.inj ((hr' fuel).symm.trans hrun)
    exact ha.ne_copied
  rcases hf : s.find (.typed d) key i with _ | e
  · have hno : ¬ InstallsDead (.typed d) s i key expected new := by
      rintro ⟨-, -, x, hx, -⟩
      rw [hf] at hx
      cases hx
    unfold htiCas at hrun
    rw [show (s.tables i).lookup (.typed d) key (d.hash key) = none from hf] at hrun
    obtain ⟨rfl, rfl⟩ := Prod.mk.inj (Option.some.inj hrun)
    refine Or.inr (Or.inl ⟨rfl, hno, fun x hx => ?_, ?_⟩)
    · rw [hf] at hx
      cases hx
    · split_ifs with hlast
      · exact Or.inl rfl
      · obtain ⟨scale, -, heq⟩ := htiStartCopy_eq hlast
        exact Or.inr ⟨scale, by omega, heq⟩
  · rw [installsDead_iff hf]
    have hby : PassesBy (.typed d) s i key ↔ s.key i e ≠ doesNotExist ∧ Dead (s.val i e) := by
      unfold PassesBy
      rw [hf]
      simp only [Option.mem_def, Option.some.injEq, forall_eq']
    rw [hby]
    by_cases ht : IsTagged (s.val i e)
    · have hdead := (h.books.quiet i e hbi hi ht).resolve_right nofun
      by_cases hkey : s.key i e = doesNotExist
      · by_cases hstop : (expected ≠ expectWhatever ∧ expected ≠ expectDoesNotExist)
            ∨ new = doesNotExist
        · obtain ⟨r', hr', ha⟩ := htiCas_empty h hbi hi hf hkey hstop hpass
          exact Or.inr (Or.inr ⟨hanswer r' hr' ha, fun h => h.1 hstop, fun h => h.1 hkey⟩)
        · -- the clone comes into a dead entry
          have hw : WithKey (.typed d) b key i e s (cloneAt d key s i e) :=
            WithKey.clone hkt h.inv hi hk.1 hf hkey hpass
          have hcop : s.val i e = copiedValue := by
            by_contra hcop
            exact h.inv.val_key i e hi (fun h0 => by rw [h0] at ht; exact absurd ht (by decide))
              hcop hkey
          obtain ⟨r', hr', hdef⟩ := htiCas_dead expected new (h.withKey hw) hbi
            (by rw [hw.vals.len]; exact hi) hw.find (by rw [hw.vals.val]; exact ht)
            (fun x hbx hx => by
              rw [hw.cell_eq key x hx.ne]
              exact hpass x hbx hx) hw.key_ne
          have hsame := (hr' fuel).symm.trans ((htiCas_install hf hkey hstop hw).symm.trans hrun)
          obtain rfl := Option.some.inj hsame
          exact Or.inl ⟨hdef.copied, hstop, hkey, hcop⟩
      · obtain ⟨r', hr', hdef⟩ := htiCas_dead expected new h hbi hi hf ht hpass hkey
        obtain rfl := Option.some.inj ((hr' fuel).symm.trans hrun)
        refine Or.inr (Or.inl ⟨hdef.copied, fun h => hkey h.2.1, ⟨hkey, hdead⟩, Or.inl ?_⟩)
        obtain ⟨-, ⟨rfl, -⟩ | ⟨ht', -⟩⟩ := htiCas_stores hf hkey (fun _ => hdead) hnew hrun
        · rfl
        · exact absurd ht ht'
    · obtain ⟨r', hr', ha⟩ := htiCas_open hkt h hbi hi hf ht hk hexp hnew hpass
      refine Or.inr (Or.inr ⟨hanswer r' hr' ha, fun h => ?_, fun h => ht h.2.isTagged⟩)
      rw [h.2.2] at ht
      exact ht (isTagged_tagValue _)

/-- A table that is passed by does not matter, nor does a new one. -/
theorem meetsKilled_succ {kt : KeyType} (hi : i < s.len) (hby : PassesBy kt s i key)
    (hs : s' = s ∨ ∃ scale, i + 1 = s.len ∧ s' = s.append (htiAlloc scale)) :
    MeetsKilled kt s i key ↔ MeetsKilled kt s' (i + 1) key := by
  have hhere : ¬ KilledAt kt s i key := fun ⟨e, he, hkey, _⟩ => (hby e he).1 hkey
  rcases hs with rfl | ⟨scale, hlast, rfl⟩
  · constructor
    · rintro ⟨j, hj, hij, hall, hkilled⟩
      have hne : i ≠ j := by
        rintro rfl
        exact hhere hkilled
      exact ⟨j, hj, by omega, fun x hx hix => hall x hx (by omega), hkilled⟩
    · rintro ⟨j, hj, hij, hall, hkilled⟩
      refine ⟨j, hj, by omega, fun x hx hix => ?_, hkilled⟩
      by_cases hxi : x = i
      · rw [hxi]
        exact hby
      · exact hall x hx (by omega)
  · -- the new table has no dead entries
    constructor
    · rintro ⟨j, hj, hij, -, hkilled⟩
      obtain rfl : i = j := by omega
      exact absurd hkilled hhere
    · rintro ⟨j, hj, hij, -, e, -, -, hcop⟩
      have hj' : j < s.len + 1 := hj
      obtain rfl : j = s.len := by omega
      rw [Ht.append_alloc_val] at hcop
      exact absurd hcop (by decide)

/-- **When the loop loses no clone.** -/
theorem lostClones_eq_nil_iff (hd : d.Lawful) (hk : key ≠ 0 ∧ key < 2 ^ 64)
    (hexp : Expectation expected) (hnew : Legal new) :
    ∀ {fuel : ℕ} {s : Ht} {i : ℕ}, Refines (.typed d) s b m → b ≤ i → i < s.len →
      (∀ x, b ≤ x → x < i → (s.cell (.typed d) key x).Passed) →
      casLoop (.typed d) fuel s i key expected new = some (r, s') →
      (lostClones d fuel s i key expected new = []
        ↔ (expected = expectWhatever ∨ expected = expectDoesNotExist)
          → ¬ MeetsKilled (.typed d) s i key) := by
  intro fuel
  induction fuel with
  | zero =>
    intro s i _ _ _ _ hrun
    cases hrun
  | succ fuel ih =>
    intro s i h hbi hi hpass hrun
    have hkt : (KeyType.typed d).Lawful := hd
    obtain ⟨⟨old, s₁⟩, hstep, hans⟩ := htiCas_spec hkt h hbi hi hk hexp (Or.inr hnew) hpass
    have hstep' : htiCas (.typed d) fuel s i key (d.hash key) expected new = some (old, s₁) :=
      hstep fuel
    simp only [casLoop, hstep fuel] at hrun
    simp only [lostClones, hstep']
    rcases htiCas_copied_iff hd h hbi hi hk hexp (Or.inr hnew) hpass hstep' with
      ⟨-, hins⟩ | ⟨hcop, hno, hby, hs₁⟩ | ⟨hne, hno, hby⟩
    · rw [if_pos hins]
      obtain ⟨hgo, -, hkilled⟩ := hins
      refine iff_of_false (by simp) fun hnot => hnot hgo ⟨i, hi, le_rfl, ?_, hkilled⟩
      intro x hx hix
      omega
    · rw [if_pos hcop] at hrun
      have hdef := hans.resolve_left fun ha => ha.ne_copied hcop
      rw [if_neg hno, if_pos hcop, List.nil_append, meetsKilled_succ hi hby hs₁]
      exact ih hdef.refines (by omega) hdef.next hdef.passed hrun
    · rw [if_neg hno, if_neg hne]
      refine iff_of_true rfl fun hgo => ?_
      rintro ⟨j, hj, hij, hall, hkilled⟩
      by_cases hji : j = i
      · rw [hji] at hkilled
        exact hno ⟨hgo, hnew.1, hkilled⟩
      · exact hby (hall i (by omega) le_rfl)

/-- `ht_remove` makes no clones. -/
theorem lostClones_remove (d : Datatype) : ∀ fuel s i key,
    lostClones d fuel s i key expectWhatever doesNotExist = [] := by
  intro fuel
  induction fuel with
  | zero => exact fun _ _ _ => rfl
  | succ fuel ih =>
    intro s i key
    unfold lostClones
    split
    · rfl
    · rw [if_neg fun h => h.2.1 rfl, List.nil_append]
      split
      · exact ih _ _ _
      · rfl

end Calls

/-! ## Releasing tables -/

section Release

variable {s : St}

/-- What was made has been freed, is held by the chain, or was lost. -/
def Accounted (s : St) : Prop :=
  ∀ p, s.made.count p = s.freed.count p + held p s.ht s.ht.hti + s.lost.count p

/-- The release of the first table keeps the account. -/
theorem Accounted.release (h : Accounted s) (hlt : s.ht.hti < s.ht.len) : Accounted s.release := by
  intro p
  have hp := h p
  rw [held_succ hlt] at hp
  show s.made.count p = (s.freed ++ htiDeferFree (s.ht.tables s.ht.hti)).count p
    + held p s.ht (s.ht.hti + 1) + s.lost.count p
  rw [List.count_append, count_htiDeferFree]
  omega

/-- It makes no clone. -/
theorem St.Fresh.release (h : s.Fresh) : s.release.Fresh := by
  intro p
  refine (h p).trans (Nat.add_le_add_right ?_ 1)
  show s.freed.count p ≤ (s.freed ++ _).count p
  rw [List.count_append]
  exact Nat.le_add_right _ _

/-- An entry that refers to an object holds it. -/
theorem held_pos_of_refersTo {ht : Ht} {p : ℕ} (h : RefersTo ht p) : 0 < held p ht ht.hti := by
  obtain ⟨i, hi, hle, e, he, hnd, hkey, rfl⟩ := h
  have hown := own_eq hkey (fun hcop => hnd (Or.inl hcop)) (KeyType.getPtr (ht.key i e))
  rw [List.count_singleton_self] at hown
  have hrefs := own_le_refs he (KeyType.getPtr (ht.key i e))
  have hheld := refs_le_held hle hi (KeyType.getPtr (ht.key i e))
  omega

/-- No other table refers to what a table frees. -/
theorem release_early (h : Accounted s) (hf : s.Fresh) (hlt : s.ht.hti < s.ht.len) :
    s.release.early = s.early := by
  have hnone : ∀ p ∈ htiDeferFree (s.ht.tables s.ht.hti),
      ¬ RefersTo { s.ht with hti := s.ht.hti + 1 } p := by
    intro p hp hrefers
    have hpos := List.count_pos_iff.mpr hp
    rw [count_htiDeferFree] at hpos
    have hrest : 0 < held p s.ht (s.ht.hti + 1) := held_pos_of_refersTo hrefers
    have hsum := h p
    have hfresh := hf p
    rw [held_succ hlt] at hsum
    omega
  show s.early ++ List.filter _ _ = s.early
  rw [List.filter_eq_nil_iff.mpr fun p hp => by simpa using hnone p hp, List.append_nil]

/-- The loop of `ht_free`. -/
theorem freeTables_spec : ∀ {n : ℕ} {s : St}, Accounted s → s.Fresh → s.ht.hti + n = s.ht.len →
    (∀ p, s.made.count p = (freeTables n s).freed.count p + s.lost.count p)
      ∧ (freeTables n s).made = s.made ∧ (freeTables n s).early = s.early := by
  intro n
  induction n with
  | zero =>
    intro s h _ hn
    refine ⟨fun p => ?_, rfl, rfl⟩
    have hp := h p
    unfold held at hp
    rw [Finset.Ico_eq_empty (by omega), Finset.sum_empty] at hp
    exact hp
  | succ n ih =>
    intro s h hf hn
    have hlt : s.ht.hti < s.ht.len := by omega
    have hn' : s.release.ht.hti + n = s.release.ht.len := by
      show s.ht.hti + 1 + n = s.ht.len
      omega
    obtain ⟨hcount, hmade, hearly⟩ := ih (h.release hlt) hf.release hn'
    exact ⟨hcount, hmade, hearly.trans (release_early h hf hlt)⟩

/-- **`ht_free`** frees what has not been lost. -/
theorem keysFreed_iff (h : Accounted s) (hf : s.Fresh) (hlt : s.ht.hti < s.ht.len)
    (he : s.early = []) : s.KeysFreed ↔ s.lost = [] := by
  obtain ⟨hcount, hmade, hearly⟩ := freeTables_spec h hf (Nat.add_sub_cancel' hlt.le)
  unfold St.KeysFreed htFree
  rw [hmade, hearly, List.perm_iff_count]
  constructor
  · rintro ⟨hperm, -⟩
    refine List.eq_nil_iff_forall_not_mem.mpr fun p hp => ?_
    have hpos := List.count_pos_iff.mpr hp
    have hp' := hperm p
    have := hcount p
    omega
  · intro hl
    refine ⟨fun p => ?_, he⟩
    have hp := hcount p
    rw [hl, List.count_nil, Nat.add_zero] at hp
    exact hp.symm

end Release

/-! ## Whole runs -/

section Runs

variable {d : Datatype} {fuel b i key expected new r : ℕ} {s s' : St} {m : List (ℕ × ℕ)} {c : Call}

/-- A state of a call that has begun at table `b`, which may have been released since. -/
structure Midway (d : Datatype) (b : ℕ) (m : List (ℕ × ℕ)) (s : St) : Prop where
  refines : Refines (.typed d) s.ht b m
  noBlank : NoBlank s.ht
  accounted : Accounted s
  hti : s.ht.hti = b ∨ (s.ht.hti = b + 1 ∧ b + 1 < s.ht.len
    ∧ (s.ht.tables b).numEntriesCopied = 2 ^ (s.ht.tables b).scale)

/-- Between two calls the table stands for the map. -/
theorem Midway.rest (h : Midway d b m s) : Refines (.typed d) s.ht s.ht.hti m := by
  rcases h.hti with heq | ⟨heq, hnext, hall⟩
  · rw [heq]
    exact h.refines
  · rw [heq]
    exact h.refines.retire hnext hall

/-- The loop of `ht_cas` and `ht_remove`. -/
theorem Midway.loop (hd : d.Lawful) (h : Midway d b m s) (hk : key ≠ 0 ∧ key < 2 ^ 64)
    (hexp : Expectation expected) (hnew : new = doesNotExist ∨ Legal new)
    (hrun : s.loop d fuel b key expected new = some (r, s')) :
    Midway d b (mapCas (.typed d) m key expected new) s'
      ∧ s'.early = s.early ∧ s'.lost = s.lost ++ lostClones d fuel s.ht b key expected new := by
  obtain ⟨⟨r', ht⟩, hloop, heq⟩ := Option.map_eq_some_iff.mp hrun
  obtain ⟨-, rfl⟩ := Prod.mk.inj heq
  obtain ⟨howned, hnb, href, hframe⟩ := casLoop_owned hd hk hexp hnew h.refines le_rfl
    h.refines.inv.base_lt (fun x h₁ h₂ => by omega) h.noBlank h.rest.inv.retired
    h.rest.inv.base_lt.le hloop
  refine ⟨⟨href, hnb, fun p => ?_, ?_⟩, rfl, rfl⟩
  · have hp := h.accounted p
    have ho := howned.conserved p
    show (s.made ++ clonesOf d key s.ht ht).count p = s.freed.count p + held p ht ht.hti
      + (s.lost ++ lostClones d fuel s.ht b key expected new).count p
    rw [hframe.hti, List.count_append, List.count_append]
    omega
  · show ht.hti = b ∨ _
    rw [hframe.hti]
    refine h.hti.imp id fun ⟨heq, hnext, hall⟩ => ⟨heq, hnext.trans_le hframe.len, ?_⟩
    have hlt := h.refines.inv.base_lt
    rw [hframe.copied b hlt, hframe.scale b hlt]
    exact hall

/-- `ht_cas` helps with the copy. -/
theorem helped_midway (hd : d.Lawful) (h : Midway d s.ht.hti m s) (hf : s.Fresh)
    (hrun : s.helped d fuel = some s') :
    Midway d s.ht.hti m s' ∧ s'.early = s.early ∧ s'.lost = s.lost := by
  unfold St.helped at hrun
  by_cases hnext : s.ht.hti + 1 < s.ht.len
  · rw [if_pos hnext] at hrun
    obtain ⟨⟨finished, ht⟩, hhelp, heq⟩ := Option.map_eq_some_iff.mp hrun
    have hkt : (KeyType.typed d).Lawful := hd
    have hn := h.refines.keyed.length_lt hkt
    obtain ⟨hheld, hnb⟩ := htiHelpCopy_keeps hkt hn le_rfl h.refines.inv h.refines.books h.noBlank
      hnext hhelp
    obtain ⟨fuel', finished', ht', hhelp', hinv, hkept, hbooks, hhti, hlen, hfin⟩ :=
      htiHelpCopy_spec hkt hn le_rfl h.refines.inv h.refines.books hnext
    have hsame := (htiHelpCopy_mono (le_max_left fuel fuel') hhelp).symm.trans
      (htiHelpCopy_mono (le_max_right fuel fuel') hhelp')
    obtain ⟨rfl, rfl⟩ := Prod.mk.inj (Option.some.inj hsame)
    have href : Refines (.typed d) ht s.ht.hti m := h.refines.of_kept hinv hkept hbooks
    have hacc : Accounted { s with ht := ht } := by
      intro p
      show s.made.count p = s.freed.count p + held p ht ht.hti + s.lost.count p
      rw [hhti, hheld p]
      exact h.accounted p
    cases finished with
    | false =>
      obtain rfl : _ = s' := heq
      exact ⟨⟨href, hnb, hacc, Or.inl hhti⟩, rfl, rfl⟩
    | true =>
      obtain rfl : _ = s' := heq
      have hlt : ht.hti < ht.len := by omega
      refine ⟨⟨href.setHti _, hnb, hacc.release hlt, Or.inr ⟨?_, hnext.trans_le hlen, hfin rfl⟩⟩,
        release_early hacc hf hlt, rfl⟩
      show ht.hti + 1 = s.ht.hti + 1
      rw [hhti]
  · rw [if_neg hnext] at hrun
    cases hrun
    exact ⟨h, rfl, rfl⟩

/-- Between two calls. -/
def Balanced (d : Datatype) (s : St) : Prop := ∃ m, Midway d s.ht.hti m s

/-- Between two calls every key is owned once or handed over. -/
theorem Midway.balanced (h : Midway d b m s) : Balanced d s :=
  ⟨m, h.rest, h.noBlank, h.accounted, Or.inl rfl⟩

/-- **One call** keeps the account, and loses a clone unless it fits. -/
theorem call_balanced (hd : d.Lawful) (h : Balanced d s) (hf : s.Fresh) (hc : c.Valid)
    (hrun : sys d fuel s c = some s') :
    Balanced d s' ∧ s'.early = s.early ∧ (s'.lost = [] ↔ s.lost = [] ∧ Fits d fuel s c) := by
  obtain ⟨m, hm⟩ := h
  obtain ⟨⟨r, s₁⟩, hcall, rfl⟩ := Option.map_eq_some_iff.mp hrun
  cases c with
  | cas key expected new =>
    obtain ⟨hk, hnew, hexp⟩ := hc
    simp only [call, htCas] at hcall
    split at hcall
    · cases hcall
    · rename_i s₀ hhelp
      obtain ⟨hmid, hearly, hlost⟩ := helped_midway hd hm hf hhelp
      obtain ⟨hmid', hearly', hlost'⟩ := hmid.loop hd hk hexp (Or.inr hnew) hcall
      refine ⟨hmid'.balanced, hearly'.trans hearly, ?_⟩
      rw [hlost', hlost, List.append_eq_nil_iff]
      refine and_congr_right fun _ => ?_
      simp only [Fits, hhelp, Option.mem_def, Option.some.injEq, forall_eq']
      obtain ⟨⟨r', ht⟩, hloop, -⟩ := Option.map_eq_some_iff.mp hcall
      exact lostClones_eq_nil_iff hd hk hexp hnew hmid.refines le_rfl hmid.refines.inv.base_lt
        (fun x h₁ h₂ => by omega) hloop
  | get key =>
    obtain ⟨⟨r', ht⟩, hget, heq⟩ := Option.map_eq_some_iff.mp hcall
    obtain rfl := htiGet_still hm.refines hm.refines.inv.base_lt hget
    obtain ⟨-, rfl⟩ := Prod.mk.inj heq
    exact ⟨⟨m, hm⟩, rfl, (and_iff_left trivial).symm⟩
  | remove key =>
    obtain ⟨hmid, hearly, hlost⟩ := hm.loop hd hc
      (show Expectation expectWhatever from Or.inr (Or.inr (Or.inl rfl))) (Or.inl rfl) hcall
    rw [lostClones_remove, List.append_nil] at hlost
    exact ⟨hmid.balanced, hearly, by rw [hlost]; exact (and_iff_left trivial).symm⟩
  | count =>
    cases hcall
    exact ⟨⟨m, hm⟩, rfl, (and_iff_left trivial).symm⟩

/-- A new table holds nothing. -/
theorem held_htAlloc (p b : ℕ) : held p htAlloc b = 0 :=
  Finset.sum_eq_zero fun _ _ => Finset.sum_eq_zero fun _ _ => own_empty p _

/-- Nothing is owned at the start. -/
theorem init_balanced (d : Datatype) : Balanced d init := by
  refine ⟨[], htAlloc_refines _, fun i e _ h => absurd rfl h, fun p => ?_, Or.inl rfl⟩
  have hheld : held p init.ht init.ht.hti = 0 := held_htAlloc p 0
  rw [hheld]
  rfl

/-- A sequence of calls keeps the account, and loses no clone exactly when all calls fit. -/
theorem calls_balanced (hd : d.Lawful) {cs : List Call} : ∀ {s : St}, Balanced d s →
    (∀ c ∈ cs, c.Valid) →
    (∀ pre post s', cs = pre ++ post → run (sys d fuel) s pre = some s' → s'.Fresh) →
    run (sys d fuel) s cs = some s' →
    Balanced d s' ∧ s'.early = s.early
      ∧ (s'.lost = [] ↔ s.lost = [] ∧ StepsMeet (sys d fuel) (Fits d fuel) s cs) := by
  induction cs with
  | nil =>
    intro s h _ _ hrun
    cases hrun
    exact ⟨h, rfl, (and_iff_left trivial).symm⟩
  | cons c cs ih =>
    intro s h hvalid hfresh hrun
    obtain ⟨hc, hcs⟩ := List.forall_mem_cons.mp hvalid
    obtain ⟨s₁, hstep, hrest⟩ := run_cons_eq_some.mp hrun
    have hfresh₁ : ∀ pre post s', cs = pre ++ post → run (sys d fuel) s₁ pre = some s' →
        s'.Fresh := fun pre post s' heq hpre =>
      hfresh (c :: pre) post s' (congrArg (c :: ·) heq) (run_cons_eq_some.mpr ⟨s₁, hstep, hpre⟩)
    obtain ⟨h₁, hearly, hlost⟩ := call_balanced hd h (hfresh [] (c :: cs) s rfl rfl) hc hstep
    obtain ⟨h', hearly', hlost'⟩ := ih h₁ hcs hfresh₁ hrest
    refine ⟨h', hearly'.trans hearly, ?_⟩
    rw [hlost', hlost, and_assoc]
    refine and_congr_right fun _ => and_congr_right fun _ => ?_
    constructor
    · intro hmeet s₂ hs₂
      rw [Option.mem_def, hstep] at hs₂
      cases hs₂
      exact hmeet
    · exact fun hmeet => hmeet s₁ hstep

/-- **Key ownership**: at the end of every sequence of calls by one thread, `ht_free` has
passed every key object to `rcu_defer_free` exactly once, and none too early, exactly when
no call put its clone into a dead entry. -/
theorem keys_freed_iff_fits (d : Datatype) (hd : d.Lawful) (fuel : ℕ) (cs : List Call) (s : St)
    (hvalid : ∀ c ∈ cs, c.Valid) (hrun : run (sys d fuel) init cs = some s)
    (hfresh : ∀ pre post s', cs = pre ++ post → run (sys d fuel) init pre = some s' → s'.Fresh) :
    s.KeysFreed ↔ StepsMeet (sys d fuel) (Fits d fuel) init cs := by
  obtain ⟨⟨m, hm⟩, hearly, hlost⟩ := calls_balanced hd (init_balanced d) hvalid hfresh hrun
  have hf : s.Fresh := hfresh cs [] s (List.append_nil cs).symm hrun
  rw [keysFreed_iff hm.accounted hf hm.refines.inv.base_lt hearly, hlost]
  exact and_iff_right rfl

/-- Pointers that are all different are fresh. -/
theorem fresh_of_nodup (h : s.made.Nodup) : s.Fresh := fun p =>
  (List.nodup_iff_count_le_one.mp h p).trans (Nat.le_add_left 1 _)

/-- The states before and after each of the calls. -/
theorem fresh_of_take {cs : List Call}
    (h : ∀ n ≤ cs.length, ∀ s' ∈ run (sys d fuel) s (cs.take n), s'.made.Nodup) :
    ∀ pre post s', cs = pre ++ post → run (sys d fuel) s pre = some s' → s'.Fresh := by
  rintro pre post s' rfl hrun
  refine fresh_of_nodup (h pre.length ?_ s' ?_)
  · rw [List.length_append]
    exact Nat.le_add_right _ _
  · rw [List.take_left]
    exact hrun

/-- Keys that are compared by their last three digits: those under 500 share two buckets of
the first table, the others start at another one. -/
def twoBuckets : Datatype where
  cmp p q := (p % 1000 : ℕ) - (q % 1000 : ℕ)
  hash p := if p % 1000 < 500 then 2 ^ 31 else 4
  clone n p := 1000 * (n % 2 ^ 20 + 1) + p % 1000

/-- The keys of the runs are lawful. -/
theorem twoBuckets_lawful : twoBuckets.Lawful := by
  refine ⟨fun p => sub_self _, fun p q h => ?_, fun p q r h h' => ?_, fun p q h => ?_, fun n p => ?_,
    fun n p => ?_, fun n p => ?_⟩
  · simp only [twoBuckets] at h ⊢
    omega
  · simp only [twoBuckets] at h h' ⊢
    omega
  · simp only [twoBuckets] at h ⊢
    rw [show p % 1000 = q % 1000 by omega]
  · simp only [twoBuckets]
    omega
  · simp only [twoBuckets]
    omega
  · simp only [twoBuckets]
    omega

/-- More keys than their two buckets have room for. -/
def nine : List Call := (List.range 9).map fun n => .cas (n + 1) expectDoesNotExist (n + 100)

/-- The table has grown, the copy is finished, and a key is removed. -/
def copied : List Call := nine ++ [.cas 3 102 500, .cas 4 103 600, .remove 5, .get 6]

/-- The copy has begun, and killed the bucket where another key starts. -/
def killed : List Call := nine ++ [.cas 900 expectDoesNotExist 7]

/-- The first table is released, and no key is lost. -/
theorem keys_freed_iff_fits_copied :
    ∃ s, run (sys twoBuckets 60) init copied = some s ∧ s.ht.hti = 1 ∧ s.KeysFreed := by
  have hvalid : ∀ c ∈ copied, c.Valid := by decide
  have hnodup : ∀ n ≤ copied.length,
      ∀ s' ∈ run (sys twoBuckets 60) init (copied.take n), s'.made.Nodup := by
    decide +kernel
  have hend : (run (sys twoBuckets 60) init copied).map (·.ht.hti) = some 1 := by decide +kernel
  obtain ⟨s, hrun, hhti⟩ := Option.map_eq_some_iff.mp hend
  exact ⟨s, hrun, hhti, (keys_freed_iff_fits twoBuckets twoBuckets_lawful 60 _ s hvalid hrun
    (fresh_of_take hnodup)).mpr (by decide +kernel)⟩

/-- The copy kills the bucket where the last key starts, the key comes into it, and its
clone is lost. -/
theorem key_lost :
    twoBuckets.Lawful ∧ (∀ c ∈ killed, c.Valid)
      ∧ (∀ pre post s', killed = pre ++ post → run (sys twoBuckets 60) init pre = some s' →
        s'.Fresh)
      ∧ ∃ s, run (sys twoBuckets 60) init killed = some s
        ∧ (htFree s).freed.length < (htFree s).made.length ∧ ¬ s.KeysFreed := by
  have hnodup : ∀ n ≤ killed.length,
      ∀ s' ∈ run (sys twoBuckets 60) init (killed.take n), s'.made.Nodup := by
    decide +kernel
  have hend : (run (sys twoBuckets 60) init killed).map
      (fun s => decide ((htFree s).freed.length < (htFree s).made.length)) = some true := by
    decide +kernel
  obtain ⟨s, hrun, hlt⟩ := Option.map_eq_some_iff.mp hend
  refine ⟨twoBuckets_lawful, by decide, fresh_of_take hnodup, s, hrun, of_decide_eq_true hlt, ?_⟩
  rintro ⟨hperm, -⟩
  exact (of_decide_eq_true hlt).ne hperm.length_eq

end Runs

end HashtableKeys
