/-
# Copying entries of the hash table

`hti_copy_entry` and `hti_help_copy` for a single thread: they end, whatever the hash
function is, leave the value of every key as it is, and keep the books.

* `Copier` — a copy that was begun, and the table that it has come to;
* `Copier.copies` — it ends: a table that has no room, or only a dead entry, for the key is
  followed by another one, and a new table takes the value;
* `htiCopyEntry_spec`, `htiHelpCopy_spec` — the two functions.
-/
import Ssr.HashtableCount

open Map Migration

namespace Hashtable

/-! ## Copying one entry -/

section CopyEntry

variable {kt : KeyType} {s s' : Ht} {b i j e f n u v w keyHash fuel : ℕ} {pend : ℕ → ℕ}

/-- A store of what is there. -/
theorem Ht.setVal_eq_self (h : s.val i e = v) : s.setVal i e v = s := by
  unfold Ht.setVal Ht.setTable Hti.setVal
  unfold Ht.val at h
  rw [← h]
  simp only [Function.update_eq_self]

/-- Where a copy that was begun goes on. -/
theorem htiCopyEntry_moving (hl : Legal u) (hv : s.val i e = tagValue u)
    (hh : keyHash = 0 ∨ keyHash = kt.hash (kt.keyOf (s.key i e))) :
    htiCopyEntry kt (fuel + 1) s i e keyHash j =
      match s.find kt (kt.keyOf (s.key i e)) j with
      | none =>
        htiCopyEntry kt fuel (if j + 1 < s.len then s else htiStartCopy s j) i e
          (kt.hash (kt.keyOf (s.key i e))) (j + 1)
      | some f =>
        let s₁ := s.withKey j f (s.key i e)
        if s₁.val j f = copiedValue then
          htiCopyEntry kt fuel s₁ i e (kt.hash (kt.keyOf (s.key i e))) (j + 1)
        else if s₁.val j f = doesNotExist then
          some (true, (((s₁.setVal j f u).setVal i e copiedValue).addCount i (2 ^ 64 - 1)).addCount j 1)
        else some (false, s₁.setVal i e copiedValue) := by
  have h0 : tagValue u ≠ doesNotExist := by
    intro h
    have ht := isTagged_tagValue u
    rw [h] at ht
    exact absurd ht (by decide)
  have htomb : tagValue u ≠ tombstone := by
    intro h
    have ht := isTagged_tagValue u
    rw [h] at ht
    exact absurd ht (by decide)
  have hsame : s.setVal i e (tagValue (tagValue u)) = s := by
    rw [tagValue_of_isTagged (isTagged_tagValue u)]
    exact Ht.setVal_eq_self hv
  have hhash : (if keyHash = 0 then kt.hash (kt.keyOf (s.key i e)) else keyHash)
      = kt.hash (kt.keyOf (s.key i e)) := by
    rcases hh with rfl | rfl
    · exact if_pos rfl
    · split_ifs <;> rfl
  have hc0 : copiedValue ≠ doesNotExist := by decide
  simp only [htiCopyEntry, hv, if_neg hl.tagValue_not_dead, if_neg h0, if_neg htomb, hsame, hhash,
    stripTag_tagValue hl.2.1]
  unfold Ht.find
  cases h : (s.tables j).lookup kt (kt.keyOf (s.key i e)) (kt.hash (kt.keyOf (s.key i e))) with
  | none => rfl
  | some f =>
    simp only
    generalize s.withKey j f (s.key i e) = s₁
    by_cases hc : s₁.val j f = copiedValue
    · rw [if_pos hc, if_pos hc, if_neg (by rw [hc]; exact hc0)]
    · rw [if_neg hc, if_neg hc]
      split_ifs <;> rfl

/-- The value of entry `e` of table `i` is being copied, and its copier has come to table
`j`. -/
structure Copier (kt : KeyType) (s : Ht) (b i e u j : ℕ) : Prop where
  inv : Inv kt s b
  legal : Legal u
  src : s.val i e = tagValue u
  entry_lt : e < 2 ^ (s.tables i).scale
  lt : i < j
  lt_len : j < s.len
  skip : ∀ m, i + 1 ≤ m → m < j → (s.cell kt (kt.keyOf (s.key i e)) m).Skipped

/-- The entry that is copied has a key. -/
theorem Copier.key_ne (hc : Copier kt s b i e u j) : s.key i e ≠ doesNotExist :=
  Legal.tagValue_key hc.inv (hc.lt.trans hc.lt_len) hc.legal hc.src

/-- Its table is not released. -/
theorem Copier.base_le (hc : Copier kt s b i e u j) : b ≤ i := by
  refine hc.inv.base_le hc.entry_lt ?_
  rw [hc.src]
  exact hc.legal.tagValue_not_dead

/-- The source entry in the column of its key. -/
theorem Copier.cell_src (hc : Copier kt s b i e u j) :
    s.cell kt (kt.keyOf (s.key i e)) i = .moving u := by
  rw [Ht.cell_of_key (hc.inv.found i e (hc.lt.trans hc.lt_len) hc.key_ne) hc.key_ne, hc.src]
  exact cellOf_moving hc.legal

/-- All tables before table `j` have given the key away, or are about to. -/
theorem Copier.below (hc : Copier kt s b i e u j) :
    ∀ m, b ≤ m → m < j → s.cell kt (kt.keyOf (s.key i e)) m = .full
      ∨ (s.cell kt (kt.keyOf (s.key i e)) m).Tagged := by
  intro m hbm hmj
  rcases Nat.lt_trichotomy m i with hmi | rfl | hmi
  · refine (hc.inv.column _).behind m i hbm hmi (hc.lt.trans hc.lt_len) ?_
    rw [hc.cell_src]
    trivial
  · rw [hc.cell_src]
    exact Or.inr trivial
  · exact (hc.skip m hmi hmj).passed.full_or_tagged

/-- What installing the key does. -/
structure WithKey (kt : KeyType) (b k j f : ℕ) (s s' : Ht) : Prop where
  inv : Inv kt s' b
  kept : Kept kt b s s'
  vals : SameVals s s'
  hti : s'.hti = s.hti
  key_ne : s'.key j f ≠ doesNotExist
  find : s'.find kt k j = some f
  key_eq : ∀ m x, s.key m x ≠ doesNotExist → s'.key m x = s.key m x
  cell_eq : ∀ k' m, m ≠ j → s'.cell kt k' m = s.cell kt k' m

/-- A counter is no entry. -/
theorem addKeyCount_entries (s : Ht) (j : ℕ) : SameEntries s (s.addKeyCount j) :=
  SameEntries.setTable rfl rfl rfl

/-- Nor is it a value. -/
theorem addKeyCount_vals (s : Ht) (j : ℕ) : SameVals s (s.addKeyCount j) :=
  SameVals.setTable (fun _ => rfl) rfl rfl rfl rfl

/-- A store into a key changes no value. -/
theorem setKey_vals (s : Ht) (j f w : ℕ) : SameVals s (s.setKey j f w) :=
  SameVals.setTable (fun _ => Hti.setKey_val _ _) rfl rfl rfl rfl

/-- A store into a key of another table. -/
theorem cell_setKey_of_ne (w k : ℕ) {m : ℕ} (hm : m ≠ j) :
    (s.setKey j f w).cell kt k m = s.cell kt k m := by
  unfold Ht.cell
  rw [Ht.find_setKey_of_ne w hm]
  split
  · rfl
  · rw [Ht.setKey_key_of_ne w fun h => hm h.1, Ht.setKey_val]

/-- A key is installed in an empty entry where its lookup stops. -/
theorem WithKey.install (hkt : kt.Lawful) (hi : Inv kt s b) (hlt : j < s.len)
    (he : s.key j f = doesNotExist) (hw : kt.Good w) (hf : s.find kt (kt.keyOf w) j = some f)
    (hbelow : ∀ m, b ≤ m → m < j → s.cell kt (kt.keyOf w) m = .full
      ∨ (s.cell kt (kt.keyOf w) m).Tagged) :
    WithKey kt b (kt.keyOf w) j f s ((s.setKey j f w).addKeyCount j) := by
  obtain ⟨hi₁, hk₁⟩ := hi.install hkt hlt he hw hf hbelow
  have hent := addKeyCount_entries (s.setKey j f w) j
  obtain ⟨hi₂, hk₂⟩ := hi₁.sameEntries hent
  have hkey : ((s.setKey j f w).addKeyCount j).key j f = w := by
    rw [hent.key_eq, Ht.setKey_key_self]
  refine ⟨hi₂, hk₁.trans hk₂, (setKey_vals s j f w).trans (addKeyCount_vals _ j), rfl, ?_, ?_,
    fun m x hx => ?_, fun k' m hm => ?_⟩
  · rw [hkey]
    exact hw.1
  · have hfound := hi₂.found j f hlt (by rw [hkey]; exact hw.1)
    rw [hkey] at hfound
    exact hfound
  · rw [hent.key_eq]
    refine Ht.setKey_key_of_ne w ?_
    rintro ⟨rfl, rfl⟩
    exact hx he
  · rw [hent.cell_eq, cell_setKey_of_ne w k' hm]

/-- **The key comes into the next table.** -/
theorem Copier.withKey (hkt : kt.Lawful) (hc : Copier kt s b i e u j)
    (hf : s.find kt (kt.keyOf (s.key i e)) j = some f) :
    WithKey kt b (kt.keyOf (s.key i e)) j f s (s.withKey j f (s.key i e)) := by
  unfold Ht.withKey
  split_ifs with h
  · have hgood := hc.inv.good i e (hc.lt.trans hc.lt_len) hc.key_ne
    exact WithKey.install hkt hc.inv hc.lt_len h hgood hf hc.below
  · exact ⟨hc.inv, Kept.refl kt b s, SameVals.refl s, rfl, h, hf, fun _ _ _ => rfl,
      fun _ _ _ => rfl⟩

/-- The copier of the state with the key in table `j`. -/
theorem Copier.of_withKey (hc : Copier kt s b i e u j)
    (hw : WithKey kt b (kt.keyOf (s.key i e)) j f s s') :
    Copier kt s' b i e u j ∧ s'.key i e = s.key i e := by
  have hkey : s'.key i e = s.key i e := hw.key_eq i e hc.key_ne
  refine ⟨⟨hw.inv, hc.legal, ?_, ?_, hc.lt, ?_, fun m hm hmj => ?_⟩, hkey⟩
  · rw [hw.vals.val]
    exact hc.src
  · rw [hw.vals.scale]
    exact hc.entry_lt
  · rw [hw.vals.len]
    exact hc.lt_len
  · rw [hkey, hw.cell_eq _ m hmj.ne]
    exact hc.skip m hm hmj

/-- The value arrives in table `j`, and the source entry is given away. -/
theorem Copier.land (hkt : kt.Lawful) (hc : Copier kt s b i e u j)
    (hkey : s.key j f ≠ doesNotExist) (hf : s.find kt (kt.keyOf (s.key i e)) j = some f)
    (hv : s.val j f = doesNotExist) :
    Inv kt ((s.setVal j f u).setVal i e copiedValue) b
      ∧ Kept kt b s ((s.setVal j f u).setVal i e copiedValue) := by
  obtain ⟨hi₂, hk₂⟩ := hc.inv.arrive hkt hc.legal hc.src hc.entry_lt hc.lt hc.lt_len hkey hv hf
    hc.skip
  have hne : ¬ (i = j ∧ e = f) := fun h => hc.lt.ne h.1
  have hv₂ : (s.setVal j f u).val i e = tagValue u := (Ht.setVal_val_of_ne u hne).trans hc.src
  obtain ⟨hi₃, hk₃⟩ := hi₂.finish hkt (hc.lt.trans hc.lt_len) hc.legal hv₂
    (by rw [Ht.setVal_scale]; exact hc.entry_lt) (by
      rw [Ht.setVal_key]
      refine ⟨j, hc.lt, hc.lt_len, Or.inl ?_, fun m hm hmj => ?_⟩
      · rw [Ht.cell_setVal_self u hf hkey]
        exact cellOf_live hc.legal
      · rw [Ht.cell_setVal u fun h => hmj.ne h.1]
        exact hc.skip m hm hmj)
  exact ⟨hi₃, hk₂.trans hk₃⟩

/-- A counter is no entry. -/
theorem addCount_entries (s : Ht) (j n : ℕ) : SameEntries s (s.addCount j n) :=
  SameEntries.setTable rfl rfl rfl

/-- The census looks at values and scales only. -/
theorem SameEntries.census_eq (h : SameEntries s s') (P : ℕ → Bool) (i : ℕ) :
    census P s' i = census P s i := by
  unfold census
  rw [h.scale]
  exact Finset.sum_congr rfl fun e _ => by rw [h.val_eq]

/-- What is counted over the entries is the same. -/
theorem SameEntries.total_eq (h : SameEntries s s') (P : ℕ → Bool) (b : ℕ) :
    total P s' b = total P s b := by
  unfold total
  rw [h.len]
  exact Finset.sum_congr rfl fun i _ => h.census_eq P i

/-- The counter that was added to. -/
theorem addCount_count_self (s : Ht) (i n : ℕ) :
    ((s.addCount i n).tables i).count = ((s.tables i).count + n) % 2 ^ 64 := by
  unfold Ht.addCount
  rw [Ht.setTable_self]

/-- The others are as they were. -/
theorem addCount_count_of_ne (s : Ht) (n : ℕ) {m : ℕ} (hm : m ≠ i) :
    ((s.addCount i n).tables m).count = (s.tables m).count := by
  unfold Ht.addCount
  rw [Ht.setTable_of_ne _ hm]

/-- So is the number of entries copied. -/
theorem addCount_copied (s : Ht) (i n m : ℕ) :
    ((s.addCount i n).tables m).numEntriesCopied = (s.tables m).numEntriesCopied := by
  unfold Ht.addCount
  by_cases hm : m = i
  · subst hm
    rw [Ht.setTable_self]
  · rw [Ht.setTable_of_ne _ hm]

/-- So is the place of the copy. -/
theorem addCount_scan (s : Ht) (i n m : ℕ) :
    ((s.addCount i n).tables m).copyScan = (s.tables m).copyScan := by
  unfold Ht.addCount
  by_cases hm : m = i
  · subst hm
    rw [Ht.setTable_self]
  · rw [Ht.setTable_of_ne _ hm]

/-- A store of a value changes no counter. -/
theorem setVal_counters (s : Ht) (i e v m : ℕ) :
    ((s.setVal i e v).tables m).count = (s.tables m).count
      ∧ ((s.setVal i e v).tables m).numEntriesCopied = (s.tables m).numEntriesCopied
      ∧ ((s.setVal i e v).tables m).copyScan = (s.tables m).copyScan := by
  unfold Ht.setVal
  by_cases hm : m = i
  · subst hm
    rw [Ht.setTable_self]
    exact ⟨rfl, rfl, rfl⟩
  · rw [Ht.setTable_of_ne _ hm]
    exact ⟨rfl, rfl, rfl⟩

/-- What the copy of an entry does: nothing for the readers; and the entry is dead. -/
structure Copied (kt : KeyType) (b i n : ℕ) (pend : ℕ → ℕ) (did : Bool) (s s' : Ht) : Prop where
  inv : Inv kt s' b
  kept : Kept kt b s s'
  books : Books s' b n (Function.update pend i (pend i + did.toNat)) none
  hti : s'.hti = s.hti
  len : s.len ≤ s'.len
  scale : ∀ m, m < s.len → (s'.tables m).scale = (s.tables m).scale
  copied : ∀ m, m < s.len → (s'.tables m).numEntriesCopied = (s.tables m).numEntriesCopied

/-- The books after a value has been moved from table `i` to table `j`. -/
theorem Books.land (hb : Books s b n pend (some (i, e))) (hn : n < 2 ^ 64) (hl : Legal u)
    (hbi : b ≤ i) (hij : i < j) (hj : j < s.len) (he : e < 2 ^ (s.tables i).scale)
    (hf : f < 2 ^ (s.tables j).scale) (hsrc : s.val i e = tagValue u)
    (hv : s.val j f = doesNotExist) :
    Books ((((s.setVal j f u).setVal i e copiedValue).addCount i (2 ^ 64 - 1)).addCount j 1) b n
      (Function.update pend i (pend i + 1)) none := by
  set s₂ := s.setVal j f u with hs₂
  set s₃ := s₂.setVal i e copiedValue with hs₃
  have hent : SameEntries s₃ ((s₃.addCount i (2 ^ 64 - 1)).addCount j 1) := by
    have h₁ := addCount_entries s₃ i (2 ^ 64 - 1)
    have h₂ := addCount_entries (s₃.addCount i (2 ^ 64 - 1)) j 1
    exact ⟨h₂.len.trans h₁.len, fun m => (h₂.table m).trans (h₁.table m),
      fun m => (h₂.probe m).trans (h₁.probe m), fun m => (h₂.scale m).trans (h₁.scale m)⟩
  have hsrc₂ : s₂.val i e = tagValue u :=
    (Ht.setVal_val_of_ne u fun h => hij.ne h.1).trans hsrc
  have he₂ : e < 2 ^ (s₂.tables i).scale := by
    rw [hs₂, Ht.setVal_scale]
    exact he
  -- the numbers of values
  have hocc_j : census occupied s₃ j = census occupied s j + 1 := by
    have h := census_setVal (v := u) occupied hf
    rw [hv, occupied_of_legal hl] at h
    rw [hs₃, census_setVal_of_ne _ hij.ne']
    simpa [occupied] using h
  have hocc_i : census occupied s₃ i + 1 = census occupied s i := by
    have h := census_setVal (v := copiedValue) occupied he₂
    rw [hsrc₂, occupied_tagValue hl, hs₂, census_setVal_of_ne _ hij.ne] at h
    simpa [occupied] using h
  have hocc : ∀ m, m ≠ i → m ≠ j → census occupied s₃ m = census occupied s m := by
    intro m hmi hmj
    rw [hs₃, census_setVal_of_ne _ hmi, hs₂, census_setVal_of_ne _ hmj]
  have htot : total occupied s₃ b = n := by
    have h₁ := total_setVal (v := u) occupied (hbi.trans hij.le) hj hf
    have h₂ := total_setVal (s := s₂) (v := copiedValue) occupied hbi (hij.trans hj) he₂
    rw [hv, occupied_of_legal hl, ← hs₂] at h₁
    rw [hsrc₂, occupied_tagValue hl, ← hs₃] at h₂
    have hst := hb.stored
    simp only [occupied, cellOf_blank, cellOf_copied, Bool.toNat_true, Bool.toNat_false] at h₁ h₂
    omega
  -- the numbers of dead entries
  have hdead_j : census dead s₃ j = census dead s j := by
    have h := census_setVal (v := u) dead hf
    rw [hv, dead_of_legal hl] at h
    rw [hs₃, census_setVal_of_ne _ hij.ne']
    simpa [dead, show ¬ Dead doesNotExist by decide] using h
  have hdead_i : census dead s₃ i = census dead s i + 1 := by
    have h := census_setVal (v := copiedValue) dead he₂
    rw [hsrc₂, dead_tagValue hl, hs₂, census_setVal_of_ne _ hij.ne] at h
    simpa [dead, show Dead copiedValue by decide] using h
  have hdead : ∀ m, m ≠ i → census dead s₃ m = census dead s m := by
    intro m hmi
    by_cases hmj : m = j
    · rw [hmj]
      exact hdead_j
    · rw [hs₃, census_setVal_of_ne _ hmi, hs₂, census_setVal_of_ne _ hmj]
  have hcnt : ∀ m, (s₃.tables m).count = (s.tables m).count
      ∧ (s₃.tables m).numEntriesCopied = (s.tables m).numEntriesCopied
      ∧ (s₃.tables m).copyScan = (s.tables m).copyScan := by
    intro m
    have h₁ := setVal_counters s j f u m
    have h₂ := setVal_counters s₂ i e copiedValue m
    exact ⟨h₂.1.trans h₁.1, h₂.2.1.trans h₁.2.1, h₂.2.2.trans h₁.2.2⟩
  refine ⟨fun m hbm hm => ?_, ?_, fun m hbm hm => ?_, fun m x hbm hm ht => ?_, fun m hm => ?_⟩
  · rw [hent.census_eq]
    have hle : census occupied s₃ m ≤ n := htot ▸ census_le_total occupied hbm hm
    have hcount := hb.count m hbm hm
    by_cases hmj : m = j
    · subst hmj
      rw [addCount_count_self, addCount_count_of_ne _ _ hij.ne', (hcnt m).1, hcount]
      omega
    · rw [addCount_count_of_ne _ _ hmj]
      by_cases hmi : m = i
      · subst hmi
        rw [addCount_count_self, (hcnt m).1, hcount]
        omega
      · rw [addCount_count_of_ne _ _ hmi, (hcnt m).1, hcount, hocc m hmi hmj]
  · rw [hent.total_eq]
    exact htot
  · rw [hent.census_eq, addCount_copied, addCount_copied, (hcnt m).2.1]
    have hcopied := hb.copied m hbm hm
    by_cases hmi : m = i
    · subst hmi
      rw [Function.update_self]
      omega
    · rw [Function.update_of_ne hmi, hdead m hmi]
      exact hcopied
  · rw [hent.val_eq] at ht ⊢
    by_cases hsrc' : m = i ∧ x = e
    · obtain ⟨rfl, rfl⟩ := hsrc'
      rw [hs₃, Ht.setVal_val_self]
      exact Or.inl (Or.inl rfl)
    · rw [hs₃, Ht.setVal_val_of_ne _ hsrc'] at ht ⊢
      by_cases hdst : m = j ∧ x = f
      · obtain ⟨rfl, rfl⟩ := hdst
        rw [hs₂, Ht.setVal_val_self] at ht
        exact absurd ht hl.2.1
      · rw [hs₂, Ht.setVal_val_of_ne _ hdst] at ht ⊢
        rcases hb.quiet m x hbm hm ht with h | h
        · exact Or.inl h
        · cases h
          exact absurd ⟨rfl, rfl⟩ hsrc'
  · rw [addCount_scan, addCount_scan, (hcnt m).2.2]
    exact hb.scan m hm

/-- A new table is not smaller. -/
theorem newScale_ge (scale count keyCount : ℕ) : scale ≤ newScale scale count keyCount :=
  Nat.le_add_right _ _

/-- `hti_start_copy` of the last table. -/
theorem htiStartCopy_eq (h : ¬ j + 1 < s.len) :
    ∃ scale, (s.tables j).scale ≤ scale ∧ htiStartCopy s j = s.append (htiAlloc scale) :=
  ⟨_, newScale_ge _ _ _, if_neg h⟩

/-- A step that leaves the counters alone, and then a copy. -/
theorem Copied.of_step {s₁ : Ht} {did : Bool} (h : Copied kt b i n pend did s₁ s')
    (hk : Kept kt b s s₁) (hh : s₁.hti = s.hti) (hlen : s.len ≤ s₁.len)
    (hs : ∀ m, m < s.len → (s₁.tables m).scale = (s.tables m).scale)
    (hc : ∀ m, m < s.len → (s₁.tables m).numEntriesCopied = (s.tables m).numEntriesCopied) :
    Copied kt b i n pend did s s' :=
  ⟨h.inv, hk.trans h.kept, h.books, h.hti.trans hh, hlen.trans h.len,
    fun m hm => (h.scale m (by omega)).trans (hs m hm),
    fun m hm => (h.copied m (by omega)).trans (hc m hm)⟩

/-- The key comes first, and then a copy. -/
theorem Copied.of_withKey {s₁ : Ht} {k : ℕ} {did : Bool} (h : Copied kt b i n pend did s₁ s')
    (hw : WithKey kt b k j f s s₁) : Copied kt b i n pend did s s' :=
  h.of_step hw.kept hw.hti hw.vals.len.ge (fun m _ => hw.vals.scale m) fun m _ => hw.vals.copied m

/-- A lookup ends in the table. -/
theorem Inv.find_lt {k : ℕ} (hi : Inv kt s b) (hj : j < s.len) (hf : s.find kt k j = some f) :
    f < 2 ^ (s.tables j).scale :=
  Hti.lookup_lt ((by decide : 2 ≤ minScale).trans (hi.scale j hj)) hf

/-- The copier comes to an entry without a value. -/
theorem Copier.copies_here (hkt : kt.Lawful) (hc : Copier kt s b i e u j) (hn : n < 2 ^ 64)
    (hb : Books s b n pend (some (i, e)))
    (hf : s.find kt (kt.keyOf (s.key i e)) j = some f) (hv : s.val j f = doesNotExist)
    (hh : keyHash = 0 ∨ keyHash = kt.hash (kt.keyOf (s.key i e))) :
    ∃ s', htiCopyEntry kt (fuel + 1) s i e keyHash j = some (true, s')
      ∧ Copied kt b i n pend true s s' := by
  have hw := hc.withKey hkt hf
  obtain ⟨hc₁, hkey₁⟩ := hc.of_withKey hw
  have hv₁ : (s.withKey j f (s.key i e)).val j f = doesNotExist := (hw.vals.val j f).trans hv
  have hne : (s.withKey j f (s.key i e)).val j f ≠ copiedValue := by
    rw [hv₁]
    decide
  rw [htiCopyEntry_moving hc.legal hc.src hh, hf]
  simp only [if_neg hne, if_pos hv₁]
  refine ⟨_, rfl, Copied.of_withKey ?_ hw⟩
  generalize s.withKey j f (s.key i e) = s₁ at *
  have hf₁ : s₁.find kt (kt.keyOf (s₁.key i e)) j = some f := by
    rw [hkey₁]
    exact hw.find
  obtain ⟨hi₃, hk₃⟩ := hc₁.land hkt hw.key_ne hf₁ hv₁
  have hent := addCount_entries ((s₁.setVal j f u).setVal i e copiedValue) i (2 ^ 64 - 1)
  have hent' := addCount_entries
    (((s₁.setVal j f u).setVal i e copiedValue).addCount i (2 ^ 64 - 1)) j 1
  obtain ⟨hi₄, hk₄⟩ := hi₃.sameEntries hent
  obtain ⟨hi₅, hk₅⟩ := hi₄.sameEntries hent'
  refine ⟨hi₅, (hk₃.trans hk₄).trans hk₅, ?_, rfl, le_rfl, fun m _ => ?_, fun m _ => ?_⟩
  · exact (hb.sameVals hw.vals).land hn hc.legal hc.base_le hc.lt hc₁.lt_len hc₁.entry_lt
      (hc₁.inv.find_lt hc₁.lt_len hf₁) hc₁.src hv₁
  · rw [hent'.scale, hent.scale, Ht.setVal_scale, Ht.setVal_scale]
  · rw [addCount_copied, addCount_copied, (setVal_counters _ _ _ _ m).2.1,
      (setVal_counters _ _ _ _ m).2.1]

/-- The state with a new table behind table `j`, the last one, where the key has no room. -/
theorem Copier.append (hc : Copier kt s b i e u j) (hlast : s.len = j + 1)
    (hfull : s.find kt (kt.keyOf (s.key i e)) j = none) {scale : ℕ} (hs : minScale ≤ scale) :
    Copier kt (s.append (htiAlloc scale)) b i e u (j + 1) := by
  have hlt : i ≠ s.len := (hc.lt.trans hc.lt_len).ne
  refine ⟨(hc.inv.append hs).1, hc.legal, ?_, ?_, hc.lt.trans (Nat.lt_succ_self j), ?_,
    fun m hm hmj => ?_⟩
  · rw [Ht.append_val _ hlt]
    exact hc.src
  · rw [Ht.append_of_ne _ hlt]
    exact hc.entry_lt
  · show j + 1 < s.len + 1
    omega
  · rw [Ht.append_key _ hlt, Ht.append_cell _ (by omega)]
    rcases Nat.lt_succ_iff_lt_or_eq.mp hmj with hmj | rfl
    · exact hc.skip m hm hmj
    · rw [Ht.cell_of_none hfull]
      trivial

/-- The copier goes on to the next table. -/
theorem Copier.next (hc : Copier kt s b i e u j) (hlt : j + 1 < s.len)
    (hskip : (s.cell kt (kt.keyOf (s.key i e)) j).Skipped) : Copier kt s b i e u (j + 1) := by
  refine ⟨hc.inv, hc.legal, hc.src, hc.entry_lt, hc.lt.trans (Nat.lt_succ_self j), hlt,
    fun m hm hmj => ?_⟩
  rcases Nat.lt_succ_iff_lt_or_eq.mp hmj with hmj | rfl
  · exact hc.skip m hm hmj
  · exact hskip

/-- **A copy that was begun ends**: the copier goes from table to table, each of which has
no room or is dead where the key belongs, until one takes the value; a new table does. -/
theorem Copier.copies (hkt : kt.Lawful) (hn : n < 2 ^ 64) {d : ℕ} :
    ∀ {fuel : ℕ} {s : Ht} {j keyHash : ℕ}, s.len - j ≤ d → d < fuel →
      Copier kt s b i e u j → Books s b n pend (some (i, e)) →
      (∀ m, s.len ≤ m → pend m = 0) → Waiting (s.cell kt (kt.keyOf (s.key i e))) j s.len →
      (keyHash = 0 ∨ keyHash = kt.hash (kt.keyOf (s.key i e))) →
      ∃ s', htiCopyEntry kt fuel s i e keyHash j = some (true, s')
        ∧ Copied kt b i n pend true s s' := by
  induction d with
  | zero =>
    intro fuel s j keyHash hd _ hc
    have := hc.lt_len
    omega
  | succ d ih =>
    intro fuel s j keyHash hd hfuel hc hb hp hwait hh
    obtain ⟨fuel, rfl⟩ : ∃ n, fuel = n + 1 := ⟨fuel - 1, by omega⟩
    have hjlt := hc.lt_len
    rcases hf : s.find kt (kt.keyOf (s.key i e)) j with _ | f
    · -- no room in table `j`
      rw [htiCopyEntry_moving hc.legal hc.src hh, hf]
      simp only
      have hskip : (s.cell kt (kt.keyOf (s.key i e)) j).Skipped := by
        rw [Ht.cell_of_none hf]
        trivial
      by_cases hlt : j + 1 < s.len
      · rw [if_pos hlt]
        exact ih (by omega) (by omega) (hc.next hlt hskip) hb hp (hwait.next hskip) (Or.inr rfl)
      · rw [if_neg hlt]
        obtain ⟨scale, hscale, heq⟩ := htiStartCopy_eq hlt
        have hlast : s.len = j + 1 := by omega
        have hs : minScale ≤ scale := (hc.inv.scale j hjlt).trans hscale
        have hil : i ≠ s.len := (hc.lt.trans hjlt).ne
        have hkey : (s.append (htiAlloc scale)).key i e = s.key i e := Ht.append_key _ hil
        obtain ⟨fuel, rfl⟩ : ∃ n, fuel = n + 1 := ⟨fuel - 1, by omega⟩
        rw [heq]
        obtain ⟨f, hf'⟩ : ∃ f, (s.append (htiAlloc scale)).find kt
            (kt.keyOf ((s.append (htiAlloc scale)).key i e)) s.len = some f :=
          Ht.append_alloc_find scale
        rw [hlast] at hf'
        have hval : (s.append (htiAlloc scale)).val (j + 1) f = doesNotExist := by
          rw [← hlast]
          exact Ht.append_alloc_val scale
        have hbooks := hb.append hc.inv.base_lt (hp s.len le_rfl) scale
        obtain ⟨s', hs', hcop⟩ := (hc.append hlast hf hs).copies_here hkt hn hbooks hf' hval
          (Or.inr (by rw [hkey]))
        refine ⟨s', hs', hcop.of_step (hc.inv.append hs).2 rfl (Nat.le_succ _) ?_ ?_⟩
        · intro m hm
          rw [Ht.append_of_ne _ hm.ne]
        · intro m hm
          rw [Ht.append_of_ne _ hm.ne]
    · by_cases hv0 : s.val j f = doesNotExist
      · exact hc.copies_here hkt hn hb hf hv0 hh
      · -- the value is there already, or the entry is dead
        have hcop : s.val j f = copiedValue := by
          by_contra hne
          have hkey := hc.inv.val_key j f hjlt hv0 hne
          have hcell := Ht.cell_of_key hf hkey
          have hrest := hwait.at_rest hjlt (by rw [hcell, cellOf_skipped_iff]; exact hne)
          rw [hcell] at hrest
          rcases hrest with h | h
          · have hins := cellOf_installed (s.val j f)
            rw [h] at hins
            exact hins
          · exact hv0 (eq_of_cellOf_blank h)
        have hlt : j + 1 < s.len := by
          refine hc.inv.next j f hjlt ?_
          rw [hcop]
          exact isTagged_tagValue _
        have hw := hc.withKey hkt hf
        obtain ⟨hc₁, hkey₁⟩ := hc.of_withKey hw
        have hcop₁ : (s.withKey j f (s.key i e)).val j f = copiedValue :=
          (hw.vals.val j f).trans hcop
        -- nothing has come into the tables behind
        have hwait' : Waiting (s.cell kt (kt.keyOf (s.key i e))) (j + 1) s.len := by
          by_cases hkey : s.key j f = doesNotExist
          · have hvac := Ht.cell_of_empty hf hkey
            refine Waiting.of_uninstalled ((hc.inv.column _).uninstalled
              (hc.base_le.trans hc.lt.le) ?_)
            rw [hvac]
            rintro (h | h)
            · cases h
            · exact h
          · refine hwait.next ?_
            rw [Ht.cell_of_key hf hkey, hcop, cellOf_copied]
            trivial
        rw [htiCopyEntry_moving hc.legal hc.src hh, hf]
        simp only [if_pos hcop₁]
        rw [← hkey₁] at hwait'
        generalize s.withKey j f (s.key i e) = s₁ at *
        have hskip : (s₁.cell kt (kt.keyOf (s₁.key i e)) j).Skipped := by
          rw [hkey₁, Ht.cell_of_key hw.find hw.key_ne, hcop₁, cellOf_copied]
          trivial
        have hlen := hw.vals.len
        have hwait₁ : Waiting (s₁.cell kt (kt.keyOf (s₁.key i e))) (j + 1) s₁.len := by
          rw [hlen]
          exact hwait'.congr fun m hm _ => hw.cell_eq _ m (by omega)
        have hrec : ∃ s', htiCopyEntry kt fuel s₁ i e (kt.hash (kt.keyOf (s₁.key i e))) (j + 1)
            = some (true, s') ∧ Copied kt b i n pend true s₁ s' :=
          ih (by omega) (by omega) (hc₁.next (by omega) hskip) (hb.sameVals hw.vals)
            (fun m hm => hp m (by omega)) hwait₁ (Or.inr rfl)
        obtain ⟨s', hs', hres⟩ := hrec
        rw [hkey₁] at hs'
        exact ⟨s', hs', hres.of_withKey hw⟩

/-- A store that changes the number of dead entries, but not the number of values. -/
theorem Books.shut (hb : Books s b n pend none) (hbi : b ≤ i) (hi : i < s.len)
    (he : e < 2 ^ (s.tables i).scale) {did : Bool} {busy : Option (ℕ × ℕ)}
    (hocc : occupied v = occupied (s.val i e))
    (hd : (dead v).toNat = (dead (s.val i e)).toNat + did.toNat)
    (hq : Dead v ∨ busy = some (i, e)) :
    Books (s.setVal i e v) b n (Function.update pend i (pend i + did.toNat)) busy := by
  have hcnt := setVal_counters s i e v
  refine ⟨fun m hbm hm => ?_, ?_, fun m hbm hm => ?_, fun m x hbm hm ht => ?_, fun m hm => ?_⟩
  · rw [(hcnt m).1, hb.count m hbm hm]
    by_cases hmi : m = i
    · subst hmi
      have h := census_setVal (v := v) occupied he
      rw [hocc] at h
      omega
    · rw [census_setVal_of_ne _ hmi]
  · have h := total_setVal (v := v) occupied hbi hi he
    have hst := hb.stored
    rw [hocc] at h
    omega
  · rw [(hcnt m).2.1]
    have hc := hb.copied m hbm hm
    by_cases hmi : m = i
    · subst hmi
      have h := census_setVal (v := v) dead he
      rw [Function.update_self]
      omega
    · rw [census_setVal_of_ne _ hmi, Function.update_of_ne hmi]
      exact hc
  · by_cases h : m = i ∧ x = e
    · obtain ⟨rfl, rfl⟩ := h
      rw [Ht.setVal_val_self]
      exact hq
    · rw [Ht.setVal_val_of_ne v h] at ht ⊢
      exact (hb.quiet m x hbm hm ht).imp id fun h => nomatch h
  · rw [(hcnt m).2.2]
    exact hb.scan m hm

/-- The value is tagged, and the copy goes on from there. -/
theorem htiCopyEntry_legal (hl : Legal u) (hv : s.val i e = u) :
    htiCopyEntry kt (fuel + 1) s i e keyHash j
      = htiCopyEntry kt (fuel + 1) (s.setVal i e (tagValue u)) i e keyHash j := by
  have hv₁ : (s.setVal i e (tagValue u)).val i e = tagValue u := Ht.setVal_val_self _
  have h0 : tagValue u ≠ doesNotExist := by
    intro h
    have ht := isTagged_tagValue u
    rw [h] at ht
    exact absurd ht (by decide)
  have htomb : tagValue u ≠ tombstone := by
    intro h
    have ht := isTagged_tagValue u
    rw [h] at ht
    exact absurd ht (by decide)
  have hsame : (s.setVal i e (tagValue u)).setVal i e (tagValue (tagValue u))
      = s.setVal i e (tagValue u) := by
    rw [tagValue_of_isTagged (isTagged_tagValue u)]
    exact Ht.setVal_eq_self hv₁
  simp only [htiCopyEntry, hv, hv₁, if_neg hl.not_dead, if_neg hl.1, if_neg hl.2.2,
    if_neg hl.tagValue_not_dead, if_neg h0, if_neg htomb, hsame, stripTag_tagValue hl.2.1,
    stripTag_of_not hl.2.1]

/-- A store of a value that leaves the map as it is. -/
theorem Copied.setVal (hi : Inv kt (s.setVal i e v) b) (hk : Kept kt b s (s.setVal i e v))
    {did : Bool} (hb : Books (s.setVal i e v) b n (Function.update pend i (pend i + did.toNat)) none) :
    Copied kt b i n pend did s (s.setVal i e v) :=
  ⟨hi, hk, hb, rfl, le_rfl, fun _ _ => Ht.setVal_scale v, fun m _ => (setVal_counters s i e v m).2.1⟩

/-- **Copying an entry** ends, and it returns whether the entry was not dead before. -/
theorem htiCopyEntry_spec (hkt : kt.Lawful) (hi : Inv kt s b) (hn : n < 2 ^ 64)
    (hb : Books s b n pend none) (hp : ∀ m, s.len ≤ m → pend m = 0) (hbi : b ≤ i)
    (hlt : i + 1 < s.len) (he : e < 2 ^ (s.tables i).scale) :
    ∃ fuel did s', htiCopyEntry kt fuel s i e 0 (i + 1) = some (did, s')
      ∧ Copied kt b i n pend did s s' := by
  refine ⟨s.len + 1, ?_⟩
  have hilt : i < s.len := by omega
  have hdead : Dead (s.val i e) →
      ∃ did s', htiCopyEntry kt (s.len + 1) s i e 0 (i + 1) = some (did, s')
        ∧ Copied kt b i n pend did s s' := by
    intro hd
    refine ⟨false, s, by simp only [htiCopyEntry, if_pos hd], hi, Kept.refl kt b s, ?_, rfl, le_rfl,
      fun _ _ => rfl, fun _ _ => rfl⟩
    rw [Bool.toNat_false, add_zero, Function.update_eq_self]
    exact hb
  rcases hi.stored i e hilt with hv | hv | hl | hd | ⟨u, hl, hv⟩
  · -- an empty entry is killed
    have hnd : ¬ Dead (s.val i e) := by
      rw [hv]
      decide
    obtain ⟨hi₁, hk₁⟩ := hi.shut he hlt (Or.inl ⟨hv, rfl⟩)
    refine ⟨true, _, by simp only [htiCopyEntry, if_neg hnd, if_pos hv], Copied.setVal hi₁ hk₁ ?_⟩
    refine hb.shut hbi hilt he ?_ ?_ (Or.inl (Or.inl rfl))
    · rw [hv]
      rfl
    · rw [hv]
      decide
  · -- a removed value is buried
    have hnd : ¬ Dead (s.val i e) := by
      rw [hv]
      decide
    have h0 : s.val i e ≠ doesNotExist := by
      rw [hv]
      decide
    obtain ⟨hi₁, hk₁⟩ := hi.shut he hlt (Or.inr (Or.inl ⟨hv, rfl⟩))
    refine ⟨true, s.setVal i e (tagValue tombstone), ?_, Copied.setVal hi₁ hk₁ ?_⟩
    · simp only [htiCopyEntry, if_neg hnd, if_neg h0, if_pos hv]
      rw [hv]
    · refine hb.shut hbi hilt he ?_ ?_ (Or.inl (Or.inr rfl))
      · rw [hv]
        rfl
      · rw [hv]
        decide
  · -- a value is tagged and then moved
    obtain ⟨hi₁, hk₁⟩ := hi.shut he hlt (Or.inr (Or.inr ⟨hl, rfl⟩))
    have hkey : s.key i e ≠ doesNotExist := hi.val_key i e hilt hl.1 fun h => hl.not_dead (Or.inl h)
    have hb₁ : Books (s.setVal i e (tagValue (s.val i e))) b n pend (some (i, e)) := by
      have h : Books (s.setVal i e (tagValue (s.val i e))) b n
          (Function.update pend i (pend i + false.toNat)) (some (i, e)) :=
        hb.shut hbi hilt he (by rw [occupied_of_legal hl, occupied_tagValue hl])
          (by rw [dead_of_legal hl, dead_tagValue hl]; rfl) (Or.inr rfl)
      rw [Bool.toNat_false, add_zero, Function.update_eq_self] at h
      exact h
    have hc : Copier kt (s.setVal i e (tagValue (s.val i e))) b i e (s.val i e) (i + 1) :=
      ⟨hi₁, hl, Ht.setVal_val_self _, by rw [Ht.setVal_scale]; exact he, Nat.lt_succ_self i, hlt,
        fun m hm hmj => by omega⟩
    have hwait : Waiting ((s.setVal i e (tagValue (s.val i e))).cell kt
        (kt.keyOf ((s.setVal i e (tagValue (s.val i e))).key i e))) (i + 1) s.len := by
      rw [Ht.setVal_key]
      have hcell : s.cell kt (kt.keyOf (s.key i e)) i = .live (s.val i e) := by
        rw [Ht.cell_of_key (hi.found i e hilt hkey) hkey]
        exact cellOf_live hl
      have hun := (hi.column (kt.keyOf (s.key i e))).uninstalled hbi (i := i) (by
        rw [hcell]
        rintro (h | h)
        · cases h
        · exact h)
      refine (Waiting.of_uninstalled hun).congr fun m hm _ => ?_
      exact Ht.cell_setVal _ fun h => by omega
    rw [htiCopyEntry_legal hl rfl]
    obtain ⟨s', hs', hcop⟩ := Copier.copies hkt hn (d := s.len) (by
      show s.len - (i + 1) ≤ s.len
      omega) (Nat.lt_succ_self _) hc hb₁ hp hwait (Or.inl rfl)
    refine ⟨true, s', hs', hcop.of_step hk₁ rfl le_rfl (fun _ _ => Ht.setVal_scale _) fun m _ => ?_⟩
    exact (setVal_counters _ _ _ _ m).2.1
  · exact hdead hd
  · have ht : IsTagged (s.val i e) := by
      rw [hv]
      exact isTagged_tagValue u
    rcases hb.quiet i e hbi hilt ht with hd | h
    · exact hdead hd
    · cases h

/-- More fuel does not change the result. -/
theorem htiCopyEntry_mono {fuel' : ℕ} {r : Bool × Ht} (hle : fuel ≤ fuel')
    (h : htiCopyEntry kt fuel s i e keyHash j = some r) :
    htiCopyEntry kt fuel' s i e keyHash j = some r := by
  induction fuel generalizing fuel' s keyHash j with
  | zero => cases h
  | succ fuel ih =>
    obtain ⟨fuel', rfl⟩ : ∃ m, fuel' = m + 1 := ⟨fuel' - 1, by omega⟩
    have hle' : fuel ≤ fuel' := by omega
    simp only [htiCopyEntry] at h ⊢
    by_cases h₁ : Dead (s.val i e)
    · rw [if_pos h₁] at h ⊢
      exact h
    · rw [if_neg h₁] at h ⊢
      by_cases h₂ : s.val i e = doesNotExist
      · rw [if_pos h₂] at h ⊢
        exact h
      · rw [if_neg h₂] at h ⊢
        by_cases h₃ : s.val i e = tombstone
        · rw [if_pos h₃] at h ⊢
          exact h
        · rw [if_neg h₃] at h ⊢
          split at h
          · exact ih hle' h
          · split_ifs at h ⊢
            all_goals first | exact ih hle' h | exact h

end CopyEntry

/-! ## Helping a copy -/

section HelpCopy

variable {kt : KeyType} {s s' : Ht} {b i e n fuel : ℕ}

/-- Dead entries of table `i` that have not been added to its counter. -/
def pendAt (i acc : ℕ) : ℕ → ℕ := Function.update (fun _ => 0) i acc

/-- What a number of copies does. -/
structure Helped (kt : KeyType) (b n : ℕ) (pend : ℕ → ℕ) (s s' : Ht) : Prop where
  inv : Inv kt s' b
  kept : Kept kt b s s'
  books : Books s' b n pend none
  hti : s'.hti = s.hti
  len : s.len ≤ s'.len
  scale : ∀ m, m < s.len → (s'.tables m).scale = (s.tables m).scale
  copied : ∀ m, m < s.len → (s'.tables m).numEntriesCopied = (s.tables m).numEntriesCopied

/-- One more entry to be counted. -/
theorem pendAt_add (i acc : ℕ) (did : Bool) :
    Function.update (pendAt i acc) i (pendAt i acc i + did.toNat) = pendAt i (acc + did.toNat) := by
  unfold pendAt
  rw [Function.update_self, Function.update_idem]

/-- More fuel changes no result of a copied stride. -/
theorem htiCopyEntries_mono {fuel' m acc : ℕ} {r : ℕ × Ht} (hle : fuel ≤ fuel')
    (h : htiCopyEntries kt fuel i s e m acc = some r) :
    htiCopyEntries kt fuel' i s e m acc = some r := by
  induction m generalizing s e acc with
  | zero => exact h
  | succ m ih =>
    simp only [htiCopyEntries] at h ⊢
    rcases hc : htiCopyEntry kt fuel s i e 0 (i + 1) with _ | ⟨did, s₁⟩
    · rw [hc] at h
      cases h
    · rw [hc] at h
      rw [htiCopyEntry_mono hle hc]
      exact ih h

/-- The loop of `hti_help_copy`. -/
theorem htiCopyEntries_spec (hkt : kt.Lawful) (hn : n < 2 ^ 64) (hbi : b ≤ i) {m acc : ℕ}
    (hi : Inv kt s b) (hb : Books s b n (pendAt i acc) none) (hlt : i + 1 < s.len)
    (he : e + m ≤ 2 ^ (s.tables i).scale) :
    ∃ fuel num s', htiCopyEntries kt fuel i s e m acc = some (num, s')
      ∧ Helped kt b n (pendAt i num) s s' := by
  induction m generalizing s e acc with
  | zero =>
    exact ⟨0, acc, s, rfl, hi, Kept.refl kt b s, hb, rfl, le_rfl, fun _ _ => rfl, fun _ _ => rfl⟩
  | succ m ih =>
    have hp : ∀ m, s.len ≤ m → pendAt i acc m = 0 := fun m hm =>
      Function.update_of_ne (by omega) _ _
    obtain ⟨fuel, did, s₁, h₁, hc⟩ :=
      htiCopyEntry_spec (e := e) hkt hi hn hb hp hbi hlt (by omega)
    have hb₁ := hc.books
    rw [pendAt_add] at hb₁
    have hilt : i < s.len := by omega
    have hlen := hc.len
    obtain ⟨fuel', num, s', h₂, hh⟩ := ih hc.inv hb₁ (by omega)
      (by rw [hc.scale i hilt]; omega : e + 1 + m ≤ 2 ^ (s₁.tables i).scale)
    refine ⟨max fuel fuel', num, s', ?_, hh.inv, hc.kept.trans hh.kept, hh.books,
      hh.hti.trans hc.hti, hlen.trans hh.len, fun m hm => ?_, fun m hm => ?_⟩
    · simp only [htiCopyEntries]
      rw [htiCopyEntry_mono (le_max_left _ _) h₁]
      exact htiCopyEntries_mono (le_max_right _ _) h₂
    · exact (hh.scale m (by omega)).trans (hc.scale m hm)
    · exact (hh.copied m (by omega)).trans (hc.copied m hm)

/-- More fuel changes no result of `hti_help_copy`. -/
theorem htiHelpCopy_mono {fuel' : ℕ} {r : Bool × Ht} (hle : fuel ≤ fuel')
    (h : htiHelpCopy kt fuel s i = some r) : htiHelpCopy kt fuel' s i = some r := by
  have hmono : ∀ {s₁ : Ht} {e m : ℕ} {g : ℕ × Ht → Bool × Ht},
      (htiCopyEntries kt fuel i s₁ e m 0).map g = some r →
      (htiCopyEntries kt fuel' i s₁ e m 0).map g = some r := by
    intro s₁ e m g h
    obtain ⟨p, hp, hg⟩ := Option.map_eq_some_iff.mp h
    exact Option.map_eq_some_iff.mpr ⟨p, htiCopyEntries_mono hle hp, hg⟩
  simp only [htiHelpCopy] at h ⊢
  split_ifs at h ⊢
  · exact h
  · exact hmono h
  · exact hmono h

/-- More fuel changes no result of `hti_cas`. -/
theorem htiCas_mono {fuel' key keyHash expected new : ℕ} {r : ℕ × Ht} (hle : fuel ≤ fuel')
    (h : htiCas kt fuel s i key keyHash expected new = some r) :
    htiCas kt fuel' s i key keyHash expected new = some r := by
  have hmono : ∀ {s₁ : Ht} {e : ℕ} {g : Bool × Ht → ℕ × Ht},
      (htiCopyEntry kt fuel s₁ i e keyHash (i + 1)).map g = some r →
      (htiCopyEntry kt fuel' s₁ i e keyHash (i + 1)).map g = some r := by
    intro s₁ e g h
    obtain ⟨p, hp, hg⟩ := Option.map_eq_some_iff.mp h
    exact Option.map_eq_some_iff.mpr ⟨p, htiCopyEntry_mono hle hp, hg⟩
  unfold htiCas at h ⊢
  cases hf : (s.tables i).lookup kt key keyHash with
  | none =>
    rw [hf] at h
    exact h
  | some e =>
    rw [hf] at h
    -- the copy is the only part that has fuel
    rcases ite_eq_iff.mp h with ⟨hmiss, h⟩ | ⟨hmiss, h⟩
    · exact ite_eq_iff.mpr (Or.inl ⟨hmiss, h⟩)
    · refine ite_eq_iff.mpr (Or.inr ⟨hmiss, ?_⟩)
      rcases ite_eq_iff.mp h with ⟨htag, h⟩ | ⟨htag, h⟩
      · refine ite_eq_iff.mpr (Or.inl ⟨htag, ?_⟩)
        rcases ite_eq_iff.mp h with ⟨hdead, h⟩ | ⟨hdead, h⟩
        · exact ite_eq_iff.mpr (Or.inl ⟨hdead, h⟩)
        · exact ite_eq_iff.mpr (Or.inr ⟨hdead, hmono h⟩)
      · exact ite_eq_iff.mpr (Or.inr ⟨htag, h⟩)

/-- More fuel changes no result of `ht_cas`. -/
theorem casLoop_mono {fuel' key expected new : ℕ} {r : ℕ × Ht} (hle : fuel ≤ fuel')
    (h : casLoop kt fuel s i key expected new = some r) :
    casLoop kt fuel' s i key expected new = some r := by
  induction fuel generalizing s i fuel' with
  | zero => cases h
  | succ fuel ih =>
    obtain ⟨fuel', rfl⟩ : ∃ x, fuel' = x + 1 := ⟨fuel' - 1, by omega⟩
    have hle' : fuel ≤ fuel' := Nat.le_of_succ_le_succ hle
    simp only [casLoop] at h ⊢
    cases hcas : htiCas kt fuel s i key (kt.hash key) expected new with
    | none =>
      rw [hcas] at h
      cases h
    | some p =>
      rw [hcas] at h
      rw [htiCas_mono hle' hcas]
      simp only at h ⊢
      by_cases hcopied : p.1 = copiedValue
      · rw [if_pos hcopied] at h ⊢
        exact ih hle' h
      · rw [if_neg hcopied] at h ⊢
        exact h

/-- More fuel changes no result of `hti_get`. -/
theorem htiGet_mono {fuel' key keyHash : ℕ} {r : ℕ × Ht} (hle : fuel ≤ fuel')
    (h : htiGet kt fuel s i key keyHash = some r) : htiGet kt fuel' s i key keyHash = some r := by
  induction fuel generalizing s i fuel' with
  | zero => cases h
  | succ fuel ih =>
    obtain ⟨fuel', rfl⟩ : ∃ x, fuel' = x + 1 := ⟨fuel' - 1, by omega⟩
    have hle' : fuel ≤ fuel' := Nat.le_of_succ_le_succ hle
    simp only [htiGet] at h ⊢
    cases hf : (s.tables i).lookup kt key keyHash with
    | none =>
      rw [hf] at h
      simp only at h ⊢
      split_ifs at h ⊢
      · exact ih hle' h
      · exact h
    | some e =>
      rw [hf] at h
      simp only at h ⊢
      by_cases hkey : s.key i e = doesNotExist
      · rw [if_pos hkey] at h ⊢
        exact h
      rw [if_neg hkey] at h ⊢
      by_cases htag : IsTagged (s.val i e)
      swap
      · rw [if_neg htag] at h ⊢
        exact h
      rw [if_pos htag] at h ⊢
      by_cases hdead : Dead (s.val i e)
      · rw [if_pos hdead] at h ⊢
        exact ih hle' h
      · rw [if_neg hdead] at h ⊢
        cases hcopy : htiCopyEntry kt fuel s i e keyHash (i + 1) with
        | none =>
          rw [hcopy] at h
          cases h
        | some p =>
          rw [hcopy] at h
          rw [htiCopyEntry_mono hle' hcopy]
          exact ih hle' h

/-- The place of the copy is no entry. -/
theorem setCopyScan_entries (s : Ht) (i x : ℕ) : SameEntries s (s.setCopyScan i x) :=
  SameEntries.setTable rfl rfl rfl

/-- Nor is the number of entries copied. -/
theorem addCopied_entries (s : Ht) (i m : ℕ) : SameEntries s (s.addCopied i m) :=
  SameEntries.setTable rfl rfl rfl

/-- The number that was added to. -/
theorem addCopied_self (s : Ht) (i m : ℕ) :
    ((s.addCopied i m).tables i).numEntriesCopied = (s.tables i).numEntriesCopied + m := by
  unfold Ht.addCopied
  rw [Ht.setTable_self]

/-- The chunk is reserved. -/
theorem Books.setCopyScan {pend : ℕ → ℕ} (hb : Books s b n pend none) {x : ℕ}
    (hx : entriesPerCopyChunk ∣ x) : Books (s.setCopyScan i x) b n pend none := by
  have hent := setCopyScan_entries s i x
  have hcnt : ∀ m, ((s.setCopyScan i x).tables m).count = (s.tables m).count
      ∧ ((s.setCopyScan i x).tables m).numEntriesCopied = (s.tables m).numEntriesCopied
      ∧ (((s.setCopyScan i x).tables m).copyScan = (s.tables m).copyScan
        ∨ ((s.setCopyScan i x).tables m).copyScan = x) := by
    intro m
    unfold Ht.setCopyScan
    by_cases hm : m = i
    · subst hm
      rw [Ht.setTable_self]
      exact ⟨rfl, rfl, Or.inr rfl⟩
    · rw [Ht.setTable_of_ne _ hm]
      exact ⟨rfl, rfl, Or.inl rfl⟩
  refine ⟨fun m hbm hm => ?_, ?_, fun m hbm hm => ?_, fun m e hbm hm => ?_, fun m hm => ?_⟩
  · rw [(hcnt m).1, hent.census_eq]
    exact hb.count m hbm hm
  · rw [hent.total_eq]
    exact hb.stored
  · rw [(hcnt m).2.1, hent.census_eq]
    exact hb.copied m hbm hm
  · rw [hent.val_eq]
    exact hb.quiet m e hbm hm
  · rcases (hcnt m).2.2 with h | h
    · rw [h]
      exact hb.scan m hm
    · rw [h]
      exact hx

/-- The dead entries are added to the counter. -/
theorem Books.addCopied {m : ℕ} (hb : Books s b n (pendAt i m) none) :
    Books (s.addCopied i m) b n (fun _ => 0) none := by
  have hent := addCopied_entries s i m
  have hcnt : ∀ j, ((s.addCopied i m).tables j).count = (s.tables j).count
      ∧ ((s.addCopied i m).tables j).copyScan = (s.tables j).copyScan
      ∧ ((s.addCopied i m).tables j).numEntriesCopied
        = (s.tables j).numEntriesCopied + pendAt i m j := by
    intro j
    unfold Ht.addCopied pendAt
    by_cases hj : j = i
    · subst hj
      rw [Ht.setTable_self, Function.update_self]
      exact ⟨rfl, rfl, rfl⟩
    · rw [Ht.setTable_of_ne _ hj, Function.update_of_ne hj]
      exact ⟨rfl, rfl, rfl⟩
  refine ⟨fun j hbj hj => ?_, ?_, fun j hbj hj => ?_, fun j e hbj hj => ?_, fun j hj => ?_⟩
  · rw [(hcnt j).1, hent.census_eq]
    exact hb.count j hbj hj
  · rw [hent.total_eq]
    exact hb.stored
  · rw [(hcnt j).2.2, hent.census_eq]
    exact hb.copied j hbj hj
  · rw [hent.val_eq]
    exact hb.quiet j e hbj hj
  · rw [(hcnt j).2.1]
    exact hb.scan j hj

/-- Nothing is to be counted. -/
theorem pendAt_zero (i : ℕ) : pendAt i 0 = fun _ => 0 := Function.update_eq_self _ _

/-- A chunk lies in the table: both the scan and the size are multiples of it. -/
theorem chunk_le {scale x : ℕ} (hmin : minScale ≤ scale) (hx : entriesPerCopyChunk ∣ x) :
    x % 2 ^ scale + entriesPerCopyChunk ≤ 2 ^ scale := by
  obtain ⟨q, hq⟩ : ∃ q, 2 ^ scale = 8 * q := by
    have hmin' : 4 ≤ scale := hmin
    refine ⟨2 ^ (scale - 3), ?_⟩
    rw [show (8 : ℕ) = 2 ^ 3 from rfl, ← Nat.pow_add]
    congr 1
    omega
  have hpos : 0 < 2 ^ scale := Nat.two_pow_pos scale
  have hmod := Nat.mod_lt x hpos
  have hdiv : entriesPerCopyChunk ∣ x % 2 ^ scale := (Nat.dvd_mod_iff ⟨q, hq⟩).mpr hx
  obtain ⟨r, hr⟩ := hdiv
  unfold entriesPerCopyChunk at *
  omega

/-- The entries that `hti_help_copy` copies lie in the table. -/
theorem htiHelpCopy_chunk (hi : Inv kt s b) (hb : Books s b n (fun _ => 0) none)
    (hilt : i < s.len) (htotal : (s.tables i).numEntriesCopied ≠ 2 ^ (s.tables i).scale) :
    ∃ s₁ e m, SameEntries s s₁ ∧ s₁.hti = s.hti ∧ Books s₁ b n (pendAt i 0) none
      ∧ e + m ≤ 2 ^ (s.tables i).scale
      ∧ ∀ fuel, htiHelpCopy kt fuel s i
        = (htiCopyEntries kt fuel i s₁ e m 0).map fun (numCopied, s') =>
          if numCopied = 0 then
            (decide ((s.tables i).numEntriesCopied = 2 ^ (s.tables i).scale), s')
          else
            (decide (((s'.addCopied i numCopied).tables i).numEntriesCopied
              = 2 ^ (s.tables i).scale), s'.addCopied i numCopied) := by
  set size := 2 ^ (s.tables i).scale with hsize
  rw [pendAt_zero]
  by_cases hpanic : 2 ^ ((s.tables i).scale + 1) ≤ (s.tables i).copyScan
  · refine ⟨s, 0, size, ⟨rfl, fun _ => rfl, fun _ => rfl, fun _ => rfl⟩, rfl, hb, by omega,
      fun fuel => ?_⟩
    simp only [htiHelpCopy, ← hsize, if_neg htotal, if_pos hpanic]
  · have hx := hb.scan i hilt
    refine ⟨s.setCopyScan i ((s.tables i).copyScan + entriesPerCopyChunk),
      (s.tables i).copyScan % size, entriesPerCopyChunk, setCopyScan_entries s i _, rfl,
      hb.setCopyScan (dvd_add hx (dvd_refl _)), ?_, fun fuel => ?_⟩
    · exact chunk_le (hi.scale i hilt) hx
    · simp only [htiHelpCopy, ← hsize, if_neg htotal, if_neg hpanic]

/-- **Helping a copy** changes nothing for the readers.  It says that the copy is done when
every entry of the table is dead. -/
theorem htiHelpCopy_spec (hkt : kt.Lawful) (hn : n < 2 ^ 64) (hbi : b ≤ i) (hi : Inv kt s b)
    (hb : Books s b n (fun _ => 0) none) (hlt : i + 1 < s.len) :
    ∃ fuel finished s', htiHelpCopy kt fuel s i = some (finished, s')
      ∧ Inv kt s' b ∧ Kept kt b s s' ∧ Books s' b n (fun _ => 0) none ∧ s'.hti = s.hti
      ∧ s.len ≤ s'.len
      ∧ (finished = true → (s'.tables i).numEntriesCopied = 2 ^ (s'.tables i).scale) := by
  have hilt : i < s.len := by omega
  set size := 2 ^ (s.tables i).scale with hsize
  by_cases htotal : (s.tables i).numEntriesCopied = size
  · refine ⟨0, true, s, ?_, hi, Kept.refl kt b s, hb, rfl, le_rfl, fun _ => htotal⟩
    simp only [htiHelpCopy, ← hsize, if_pos htotal]
  · obtain ⟨s₁, e, m, hent₁, hh₁, hb₁, he, hrun⟩ := htiHelpCopy_chunk hi hb hilt htotal
    obtain ⟨hi₁, hk₁⟩ := hi.sameEntries hent₁
    have hlen₁ := hent₁.len
    have hscale₁ := hent₁.scale i
    obtain ⟨fuel, num, s', hcop, hh⟩ := htiCopyEntries_spec hkt hn hbi hi₁ hb₁ (by omega)
      (by rw [hscale₁]; exact he)
    have hscale' : (s'.tables i).scale = (s.tables i).scale :=
      (hh.scale i (by omega)).trans hscale₁
    have hlen' : s.len ≤ s'.len := hlen₁ ▸ hh.len
    refine ⟨fuel, ?_⟩
    rw [hrun, hcop]
    simp only [Option.map_some]
    by_cases hnum : num = 0
    · rw [if_pos hnum]
      subst hnum
      have hbooks := hh.books
      rw [pendAt_zero] at hbooks
      refine ⟨_, s', rfl, hh.inv, hk₁.trans hh.kept, hbooks, hh.hti.trans hh₁, hlen', fun hd => ?_⟩
      exact absurd (of_decide_eq_true hd) htotal
    · rw [if_neg hnum]
      have hent := addCopied_entries s' i num
      obtain ⟨hi₂, hk₂⟩ := hh.inv.sameEntries hent
      refine ⟨_, _, rfl, hi₂, (hk₁.trans hh.kept).trans hk₂, hh.books.addCopied,
        hh.hti.trans hh₁, hlen', fun hd => ?_⟩
      rw [hent.scale, hscale']
      exact of_decide_eq_true hd

end HelpCopy

end Hashtable
