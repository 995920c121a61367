/-
# The invariant of the chain of tables

Every store of `src/map/hashtable.c` into a chain of tables is one of a few kinds.  Each
of them moves the columns of the keys as `Ssr.Migration` allows, so that all of them keep
the invariant `Inv`, and all but one keep the value of every key.

* `lookup_setKey` — a key that comes into an empty entry moves no other key;
* `Inv` — the invariant, with the table `b` from which on the columns are in order;
* `Inv.install`, `Inv.kill`, `Inv.shut`, `Inv.arrive`, `Inv.write`, `Inv.finish`,
  `Inv.append`, `Inv.retire` — one lemma per kind of store.
-/
import Ssr.Hashtable

open Map Migration

namespace Hashtable

/-! ## Words -/

section Words

variable {v : ℕ}

/-- `COPIED_VALUE` is the tag alone. -/
theorem copiedValue_eq : copiedValue = 2 ^ 63 := by decide

/-- `TOMBSTONE` has all bits but the tag. -/
theorem tombstone_eq : tombstone = 2 ^ 63 - 1 := by decide

/-- A tagged tombstone has all bits. -/
theorem tagValue_tombstone_eq : tagValue tombstone = 2 ^ 64 - 1 := by decide

/-- The tag is added to a value that has none. -/
theorem tagValue_of_not (h : ¬ IsTagged v) : tagValue v = v + 2 ^ 63 := if_neg h

/-- A tagged value has the tag. -/
theorem isTagged_tagValue (v : ℕ) : IsTagged (tagValue v) := by
  unfold tagValue
  split_ifs with h
  · exact h
  · exact Nat.le_add_left _ _

/-- Tagging twice is tagging once. -/
theorem tagValue_of_isTagged (h : IsTagged v) : tagValue v = v := if_pos h

/-- A value without a tag has nothing to strip. -/
theorem stripTag_of_not (h : ¬ IsTagged v) : stripTag v = v := by
  unfold IsTagged at h
  unfold stripTag
  omega

/-- Stripping undoes tagging. -/
theorem stripTag_tagValue (h : ¬ IsTagged v) : stripTag (tagValue v) = v := by
  rw [tagValue_of_not h]
  unfold IsTagged at h
  unfold stripTag
  omega

/-- A dead entry is tagged. -/
theorem Dead.isTagged (h : Dead v) : IsTagged v := by
  rcases h with rfl | rfl
  · exact isTagged_tagValue _
  · exact isTagged_tagValue _

/-- An entry that was copied. -/
@[simp] theorem cellOf_copied : cellOf copiedValue = .copied := by decide

/-- A deleted key that was copied. -/
@[simp] theorem cellOf_buried : cellOf (tagValue tombstone) = .buried := by decide

/-- An entry without a value. -/
@[simp] theorem cellOf_blank : cellOf doesNotExist = .blank := by decide

/-- A deleted key. -/
@[simp] theorem cellOf_tomb : cellOf tombstone = .tomb := by decide

/-- A value that is a value. -/
theorem cellOf_live (h : Legal v) : cellOf v = .live v := by
  obtain ⟨h0, ht, htomb⟩ := h
  have h₁ : v ≠ copiedValue := by
    rintro rfl
    exact ht (isTagged_tagValue _)
  have h₂ : v ≠ tagValue tombstone := by
    rintro rfl
    exact ht (isTagged_tagValue _)
  unfold cellOf
  rw [if_neg h₁, if_neg h₂, if_neg ht, if_neg h0, if_neg htomb]

/-- The value of an entry that is being copied. -/
theorem cellOf_moving (h : Legal v) : cellOf (tagValue v) = .moving v := by
  obtain ⟨h0, ht, htomb⟩ := h
  have h₁ : tagValue v ≠ copiedValue := by
    rw [tagValue_of_not ht, copiedValue_eq]
    unfold doesNotExist at h0
    omega
  have h₂ : tagValue v ≠ tagValue tombstone := by
    rw [tagValue_of_not ht, tagValue_tombstone_eq]
    rw [tombstone_eq] at htomb
    unfold IsTagged at ht
    omega
  unfold cellOf
  rw [if_neg h₁, if_neg h₂, if_pos (isTagged_tagValue v), stripTag_tagValue ht]

/-- An entry that has a key is neither vacant nor full. -/
theorem cellOf_installed (v : ℕ) : (cellOf v).Installed := by
  unfold cellOf
  split_ifs <;> trivial

/-- A tagged value is on the move, or dead. -/
theorem cellOf_tagged (h : IsTagged v) : (cellOf v).Tagged := by
  unfold cellOf
  split_ifs <;> trivial

/-- A reader goes on to the next table at dead entries only. -/
theorem cellOf_passed_iff : (cellOf v).Passed ↔ Dead v := by
  unfold cellOf
  split_ifs with h₁ h₂
  · exact ⟨fun _ => Or.inl h₁, fun _ => trivial⟩
  · exact ⟨fun _ => Or.inr h₂, fun _ => trivial⟩
  all_goals exact ⟨fun h => h.elim, fun h => (h.elim h₁ h₂).elim⟩

/-- A copy has nothing to do at `COPIED_VALUE` only. -/
theorem cellOf_skipped_iff : (cellOf v).Skipped ↔ v = copiedValue := by
  unfold cellOf
  split_ifs with h₁
  · exact ⟨fun _ => h₁, fun _ => trivial⟩
  all_goals exact ⟨fun h => h.elim, fun h => (h₁ h).elim⟩

/-- Only `DOES_NOT_EXIST` is no value. -/
theorem eq_of_cellOf_blank (h : cellOf v = .blank) : v = doesNotExist := by
  unfold cellOf at h
  split_ifs at h
  assumption

/-- Any other value, or a tombstone, is there to be copied. -/
theorem cellOf_valued (h0 : v ≠ doesNotExist) (hc : v ≠ copiedValue) : (cellOf v).Valued := by
  unfold cellOf
  split_ifs <;> trivial

/-- An entry is open to a CAS as long as it is not tagged. -/
theorem cellOf_open_iff : (cellOf v).Open ↔ ¬ IsTagged v := by
  unfold cellOf
  split_ifs with h₁ h₂ h₃
  · exact ⟨fun h => h.elim, fun h => absurd (h₁ ▸ isTagged_tagValue _) h⟩
  · exact ⟨fun h => h.elim, fun h => absurd (h₂ ▸ isTagged_tagValue _) h⟩
  · exact ⟨fun h => h.elim, fun h => absurd h₃ h⟩
  all_goals exact ⟨fun _ => h₃, fun _ => trivial⟩

end Words

/-! ## Keys -/

section Keys

variable {kt : KeyType} {a b c w : ℕ}

/-- A key is equal to itself. -/
theorem KeyType.Same.refl (h : kt.Lawful) (a : ℕ) : kt.Same a a := by
  cases kt with
  | integer f => rfl
  | typed d => exact h.cmp_refl a

/-- Equality of keys is symmetric. -/
theorem KeyType.Same.symm (h : kt.Lawful) (hab : kt.Same a b) : kt.Same b a := by
  cases kt with
  | integer f => exact Eq.symm hab
  | typed d => exact h.cmp_symm a b hab

/-- Equality of keys is transitive. -/
theorem KeyType.Same.trans (h : kt.Lawful) (hab : kt.Same a b) (hbc : kt.Same b c) :
    kt.Same a c := by
  cases kt with
  | integer f => exact Eq.trans hab hbc
  | typed d => exact h.cmp_trans a b c hab hbc

/-- Equal keys have one hash. -/
theorem KeyType.Same.hash_eq (h : kt.Lawful) (hab : kt.Same a b) : kt.hash a = kt.hash b := by
  cases kt with
  | integer f => exact congrArg f hab
  | typed d => exact h.hash_eq a b hab

/-- A key word that the table finds again. -/
def KeyType.Good (kt : KeyType) (w : ℕ) : Prop :=
  w ≠ doesNotExist ∧ kt.keyEq w (kt.keyOf w) (kt.hash (kt.keyOf w)) = true

/-- Keys that the table takes for equal are equal. -/
theorem KeyType.same_of_keyEq {k h : ℕ} (he : kt.keyEq w k h = true) : kt.Same (kt.keyOf w) k := by
  cases kt with
  | integer f => exact of_decide_eq_true he
  | typed d => exact (of_decide_eq_true he).2

/-- The table takes a key word for the keys that are equal to its own. -/
theorem KeyType.Good.keyEq_iff (h : kt.Lawful) (hw : kt.Good w) (k : ℕ) :
    kt.keyEq w k (kt.hash k) = true ↔ kt.Same (kt.keyOf w) k := by
  refine ⟨KeyType.same_of_keyEq, fun hs => ?_⟩
  cases kt with
  | integer f => exact decide_eq_true hs
  | typed d =>
    refine decide_eq_true ⟨?_, hs⟩
    have hhash : d.hash (KeyType.getPtr w) = d.hash k := h.hash_eq _ _ hs
    show d.hash k / 2 ^ 16 = w / 2 ^ 48
    rw [← hhash]
    exact (of_decide_eq_true hw.2).1

/-- The comparison does not tell equal keys apart. -/
theorem KeyType.Same.keyEq_eq (h : kt.Lawful) (hab : kt.Same a b) (w : ℕ) :
    kt.keyEq w a (kt.hash a) = kt.keyEq w b (kt.hash b) := by
  cases kt with
  | integer f => exact congrArg (fun k => decide (w = k)) hab
  | typed d =>
    have hhash : (KeyType.typed d).hash a = (KeyType.typed d).hash b := h.hash_eq a b hab
    have hcmp : d.cmp (KeyType.getPtr w) a = 0 ↔ d.cmp (KeyType.getPtr w) b = 0 :=
      ⟨fun hw => h.cmp_trans _ _ _ hw hab, fun hw => h.cmp_trans _ _ _ hw (h.cmp_symm _ _ hab)⟩
    refine decide_eq_decide.mpr (and_congr ?_ hcmp)
    rw [hhash]

/-- The key that `hti_cas` makes for `key`. -/
theorem KeyType.newKey_good (h : kt.Lawful) (n : ℕ) {key : ℕ} (hk : key ≠ 0) :
    kt.Good (kt.newKey n key (kt.hash key)) ∧
      kt.Same (kt.keyOf (kt.newKey n key (kt.hash key))) key := by
  cases kt with
  | integer f => exact ⟨⟨hk, decide_eq_true rfl⟩, rfl⟩
  | typed d =>
    have hlt := h.clone_lt n key
    have hne := h.clone_ne n key
    have hptr : KeyType.getPtr (d.hash key / 2 ^ 16 * 2 ^ 48 + d.clone n key) = d.clone n key := by
      unfold KeyType.getPtr
      omega
    have hcmp := h.clone_cmp n key
    have hsame : d.cmp (KeyType.getPtr (d.hash key / 2 ^ 16 * 2 ^ 48 + d.clone n key)) key = 0 := by
      rw [hptr]
      exact hcmp
    refine ⟨⟨?_, decide_eq_true ⟨?_, h.cmp_refl _⟩⟩, hsame⟩
    · show d.hash key / 2 ^ 16 * 2 ^ 48 + d.clone n key ≠ 0
      omega
    · have hhash := h.hash_eq _ _ hsame
      show d.hash (KeyType.getPtr (d.hash key / 2 ^ 16 * 2 ^ 48 + d.clone n key)) / 2 ^ 16
        = (d.hash key / 2 ^ 16 * 2 ^ 48 + d.clone n key) / 2 ^ 48
      rw [hhash]
      omega

end Keys

/-! ## Lookup -/

section Lookup

variable {kt : KeyType} {h h' : Hti} {k keyHash e : ℕ}

/-- Where `hti_lookup` stops. -/
theorem Hti.stopsAt_iff :
    h.stopsAt kt k keyHash e = true
      ↔ (h.table e).key = doesNotExist ∨ kt.keyEq (h.table e).key k keyHash = true := by
  unfold Hti.stopsAt
  exact decide_eq_true_iff

/-- Where `hti_lookup` stops, all entries before that one are taken by other keys. -/
theorem Hti.lookup_of_split {done rest : List ℕ} (hp : h.probes keyHash = done ++ e :: rest)
    (hdone : ∀ p ∈ done, ¬ h.stopsAt kt k keyHash p = true)
    (hstop : h.stopsAt kt k keyHash e = true) : h.lookup kt k keyHash = some e := by
  unfold Hti.lookup
  rw [List.find?_eq_some_iff_append]
  refine ⟨hstop, done, rest, hp, fun p hpd => ?_⟩
  rw [Bool.not_eq_true']
  exact Bool.eq_false_iff.mpr (hdone p hpd)

/-- It returns an entry where it stops. -/
theorem Hti.lookup_stops (hl : h.lookup kt k keyHash = some e) :
    h.stopsAt kt k keyHash e = true := List.find?_some hl

/-- It returns an entry that it looked at. -/
theorem Hti.lookup_mem (hl : h.lookup kt k keyHash = some e) : e ∈ h.probes keyHash :=
  List.mem_of_find?_eq_some hl

/-- Entries that stop a lookup before and after a change, or do not. -/
theorem Hti.lookup_congr (hp : h'.probe = h.probe) (hs : h'.scale = h.scale)
    (hstop : ∀ p, h'.stopsAt kt k keyHash p = h.stopsAt kt k keyHash p) :
    h'.lookup kt k keyHash = h.lookup kt k keyHash := by
  unfold Hti.lookup Hti.probes
  rw [hp, hs, funext hstop]

/-- Equal keys are looked up alike. -/
theorem Hti.lookup_same (hkt : kt.Lawful) {k' : ℕ} (hs : kt.Same k k') :
    h.lookup kt k (kt.hash k) = h.lookup kt k' (kt.hash k') := by
  have hstop : h.stopsAt kt k (kt.hash k) = h.stopsAt kt k' (kt.hash k') := by
    funext p
    unfold Hti.stopsAt
    rw [hs.keyEq_eq hkt]
  unfold Hti.lookup
  rw [hstop, hs.hash_eq hkt]

/-- The key that was stored. -/
theorem Hti.setKey_key_self (w : ℕ) : ((h.setKey e w).table e).key = w := by
  simp [Hti.setKey]

/-- The keys of the other entries are as they were. -/
theorem Hti.setKey_key_of_ne (w : ℕ) {p : ℕ} (hp : p ≠ e) :
    ((h.setKey e w).table p).key = (h.table p).key := by
  simp [Hti.setKey, Function.update_of_ne hp]

/-- A store into a key leaves the values as they were. -/
@[simp] theorem Hti.setKey_val (w p : ℕ) : ((h.setKey e w).table p).val = (h.table p).val := by
  by_cases hp : p = e
  · subst hp
    simp [Hti.setKey]
  · simp [Hti.setKey, Function.update_of_ne hp]

/-- A store into a value leaves the keys as they were. -/
@[simp] theorem Hti.setVal_key (v p : ℕ) : ((h.setVal e v).table p).key = (h.table p).key := by
  by_cases hp : p = e
  · subst hp
    simp [Hti.setVal]
  · simp [Hti.setVal, Function.update_of_ne hp]

/-- The value that was stored. -/
theorem Hti.setVal_val_self (v : ℕ) : ((h.setVal e v).table e).val = v := by
  simp [Hti.setVal]

/-- The values of the other entries are as they were. -/
theorem Hti.setVal_val_of_ne (v : ℕ) {p : ℕ} (hp : p ≠ e) :
    ((h.setVal e v).table p).val = (h.table p).val := by
  simp [Hti.setVal, Function.update_of_ne hp]

/-- A store into a value changes no lookup. -/
@[simp] theorem Hti.lookup_setVal (v : ℕ) :
    (h.setVal e v).lookup kt k keyHash = h.lookup kt k keyHash := by
  refine Hti.lookup_congr rfl rfl fun p => ?_
  unfold Hti.stopsAt
  rw [Hti.setVal_key]

/-- **A key comes into an empty entry.**  A lookup that did not stop at the entry stops
where it did; one that stopped there stops there if it is for that key, and otherwise it
goes on. -/
theorem Hti.lookup_setKey {w : ℕ} (he : (h.table e).key = doesNotExist) (hw : w ≠ doesNotExist) :
    (h.lookup kt k keyHash ≠ some e →
      (h.setKey e w).lookup kt k keyHash = h.lookup kt k keyHash)
      ∧ (h.lookup kt k keyHash = some e → kt.keyEq w k keyHash = true →
        (h.setKey e w).lookup kt k keyHash = some e)
      ∧ (kt.keyEq w k keyHash ≠ true → (h.setKey e w).lookup kt k keyHash ≠ some e) := by
  have hother : ∀ p, p ≠ e →
      (h.setKey e w).stopsAt kt k keyHash p = h.stopsAt kt k keyHash p := by
    intro p hp
    unfold Hti.stopsAt
    rw [Hti.setKey_key_of_ne w hp]
  have hstop : h.stopsAt kt k keyHash e = true := Hti.stopsAt_iff.mpr (Or.inl he)
  refine ⟨fun hne => ?_, fun hl hk => ?_, fun hk hl => ?_⟩
  · rcases hl : h.lookup kt k keyHash with _ | e'
    · -- the entry is not among those looked at
      unfold Hti.lookup at hl ⊢
      rw [List.find?_eq_none] at hl ⊢
      intro p hp
      have hpe : p ≠ e := by
        rintro rfl
        exact hl p hp hstop
      rw [hother p hpe]
      exact hl p hp
    · obtain ⟨hst, done, rest, hp, hdone⟩ := List.find?_eq_some_iff_append.mp hl
      have hne' : e' ≠ e := by
        rintro rfl
        exact hne hl
      refine Hti.lookup_of_split hp (fun p hpd => ?_) ?_
      · have hnot := hdone p hpd
        have hpe : p ≠ e := by
          rintro rfl
          rw [hstop] at hnot
          cases hnot
        rw [hother p hpe]
        exact Bool.eq_false_iff.mp ((Bool.not_eq_true' _).mp hnot)
      · rw [hother e' hne']
        exact hst
  · obtain ⟨_, done, rest, hp, hdone⟩ := List.find?_eq_some_iff_append.mp hl
    refine Hti.lookup_of_split hp (fun p hpd => ?_) ?_
    · have hnot := hdone p hpd
      have hpe : p ≠ e := by
        rintro rfl
        rw [hstop] at hnot
        cases hnot
      rw [hother p hpe]
      exact Bool.eq_false_iff.mp ((Bool.not_eq_true' _).mp hnot)
    · rw [Hti.stopsAt_iff, Hti.setKey_key_self]
      exact Or.inr hk
  · have hst := Hti.lookup_stops hl
    rw [Hti.stopsAt_iff, Hti.setKey_key_self] at hst
    exact hst.elim hw hk

/-- A bucket lies in the table. -/
theorem bucket_lt {ndx scale : ℕ} (hs : 2 ≤ scale) (hn : ndx < 2 ^ scale) (he : e ∈ bucket ndx) :
    e < 2 ^ scale := by
  obtain ⟨q, hq⟩ : ∃ q, 2 ^ scale = 4 * q :=
    ⟨2 ^ (scale - 2), by rw [← Nat.pow_add 2 2 (scale - 2)]; congr 1; omega⟩
  unfold bucket entriesPerBucket at he
  obtain ⟨j, _, rfl⟩ := List.mem_map.mp he
  omega

/-- The buckets that are looked at lie in the table. -/
theorem probesFrom_lt {scale : ℕ} (hs : 2 ≤ scale) {n ndx : ℕ} (hn : ndx < 2 ^ scale)
    (he : e ∈ probesFrom keyHash scale n ndx) : e < 2 ^ scale := by
  induction n generalizing ndx with
  | zero => exact absurd he List.not_mem_nil
  | succ n ih =>
    rcases List.mem_append.mp he with he | he
    · exact bucket_lt hs hn he
    · exact ih (Nat.mod_lt _ (by positivity)) he

/-- So do their entries. -/
theorem Hti.probes_lt (hs : 2 ≤ h.scale) (he : e ∈ h.probes keyHash) : e < 2 ^ h.scale :=
  probesFrom_lt hs (Nat.mod_lt _ (by positivity)) he

/-- `hti_lookup` returns an entry of the table. -/
theorem Hti.lookup_lt (hs : 2 ≤ h.scale) (hl : h.lookup kt k keyHash = some e) :
    e < 2 ^ h.scale := Hti.probes_lt hs (Hti.lookup_mem hl)

end Lookup

/-! ## The state -/

section State

variable {kt : KeyType} {s s' : Ht} {b i j e f k v w : ℕ}

/-- The table that was replaced. -/
@[simp] theorem Ht.setTable_self (h : Hti) : (s.setTable i h).tables i = h :=
  Function.update_self _ _ _

/-- The other tables are as they were. -/
theorem Ht.setTable_of_ne (h : Hti) (hj : j ≠ i) : (s.setTable i h).tables j = s.tables j :=
  Function.update_of_ne hj _ _

/-- A store into a value leaves all keys as they were. -/
@[simp] theorem Ht.setVal_key (v : ℕ) : (s.setVal i e v).key j f = s.key j f := by
  unfold Ht.key Ht.setVal
  by_cases hj : j = i
  · subst hj
    rw [Ht.setTable_self, Hti.setVal_key]
  · rw [Ht.setTable_of_ne _ hj]

/-- The value that was stored. -/
theorem Ht.setVal_val_self (v : ℕ) : (s.setVal i e v).val i e = v := by
  unfold Ht.val Ht.setVal
  rw [Ht.setTable_self, Hti.setVal_val_self]

/-- All other values are as they were. -/
theorem Ht.setVal_val_of_ne (v : ℕ) (h : ¬ (j = i ∧ f = e)) :
    (s.setVal i e v).val j f = s.val j f := by
  unfold Ht.val Ht.setVal
  by_cases hj : j = i
  · subst hj
    rw [Ht.setTable_self, Hti.setVal_val_of_ne v fun hf => h ⟨rfl, hf⟩]
  · rw [Ht.setTable_of_ne _ hj]

/-- A store into a key leaves all values as they were. -/
@[simp] theorem Ht.setKey_val (w : ℕ) : (s.setKey i e w).val j f = s.val j f := by
  unfold Ht.val Ht.setKey
  by_cases hj : j = i
  · subst hj
    rw [Ht.setTable_self, Hti.setKey_val]
  · rw [Ht.setTable_of_ne _ hj]

/-- The key that was stored. -/
theorem Ht.setKey_key_self (w : ℕ) : (s.setKey i e w).key i e = w := by
  unfold Ht.key Ht.setKey
  rw [Ht.setTable_self, Hti.setKey_key_self]

/-- All other keys are as they were. -/
theorem Ht.setKey_key_of_ne (w : ℕ) (h : ¬ (j = i ∧ f = e)) :
    (s.setKey i e w).key j f = s.key j f := by
  unfold Ht.key Ht.setKey
  by_cases hj : j = i
  · subst hj
    rw [Ht.setTable_self, Hti.setKey_key_of_ne w fun hf => h ⟨rfl, hf⟩]
  · rw [Ht.setTable_of_ne _ hj]

/-- A store into a value leaves the scales as they were. -/
@[simp] theorem Ht.setVal_scale (v : ℕ) :
    ((s.setVal i e v).tables j).scale = (s.tables j).scale := by
  unfold Ht.setVal
  by_cases hj : j = i
  · subst hj
    rw [Ht.setTable_self]
    rfl
  · rw [Ht.setTable_of_ne _ hj]

/-- A store into a key leaves the scales as they were. -/
@[simp] theorem Ht.setKey_scale (w : ℕ) :
    ((s.setKey i e w).tables j).scale = (s.tables j).scale := by
  unfold Ht.setKey
  by_cases hj : j = i
  · subst hj
    rw [Ht.setTable_self]
    rfl
  · rw [Ht.setTable_of_ne _ hj]

/-- A store into a value changes no lookup. -/
@[simp] theorem Ht.find_setVal (v : ℕ) : (s.setVal i e v).find kt k j = s.find kt k j := by
  unfold Ht.find Ht.setVal
  by_cases hj : j = i
  · subst hj
    rw [Ht.setTable_self, Hti.lookup_setVal]
  · rw [Ht.setTable_of_ne _ hj]

/-- A store into a key changes no lookup in another table. -/
theorem Ht.find_setKey_of_ne (w : ℕ) (hj : j ≠ i) :
    (s.setKey i e w).find kt k j = s.find kt k j := by
  unfold Ht.find Ht.setKey
  rw [Ht.setTable_of_ne _ hj]

/-- Equal keys are found in one entry. -/
theorem Ht.find_same (hkt : kt.Lawful) {k' : ℕ} (hs : kt.Same k k') :
    s.find kt k i = s.find kt k' i := Hti.lookup_same hkt hs

/-- Equal keys have one column. -/
theorem Ht.cell_same (hkt : kt.Lawful) {k' : ℕ} (hs : kt.Same k k') :
    s.cell kt k i = s.cell kt k' i := by
  unfold Ht.cell
  rw [Ht.find_same hkt hs]

/-- The three kinds of cells. -/
theorem Ht.cell_of_none (h : s.find kt k i = none) : s.cell kt k i = .full := by
  unfold Ht.cell
  rw [h]

/-- The lookup ends at an empty entry. -/
theorem Ht.cell_of_empty (h : s.find kt k i = some e) (he : s.key i e = doesNotExist) :
    s.cell kt k i = .vacant := by
  unfold Ht.cell
  rw [h]
  exact if_pos he

/-- The lookup ends at the key. -/
theorem Ht.cell_of_key (h : s.find kt k i = some e) (he : s.key i e ≠ doesNotExist) :
    s.cell kt k i = cellOf (s.val i e) := by
  unfold Ht.cell
  rw [h]
  exact if_neg he

/-- A store into a value moves one cell of the columns of one key. -/
theorem Ht.cell_setVal (v : ℕ) (h : ¬ (j = i ∧ s.find kt k i = some e)) :
    (s.setVal i e v).cell kt k j = s.cell kt k j := by
  unfold Ht.cell
  rw [Ht.find_setVal]
  split
  · rfl
  · rename_i e' he'
    rw [Ht.setVal_key, Ht.setVal_val_of_ne]
    rintro ⟨rfl, rfl⟩
    exact h ⟨rfl, he'⟩

/-- The value that is stored is what the column has. -/
theorem Ht.cell_setVal_self (v : ℕ) (h : s.find kt k i = some e) (he : s.key i e ≠ doesNotExist) :
    (s.setVal i e v).cell kt k i = cellOf v := by
  have hc : (s.setVal i e v).cell kt k i = cellOf ((s.setVal i e v).val i e) :=
    Ht.cell_of_key (by rw [Ht.find_setVal]; exact h) (by rw [Ht.setVal_key]; exact he)
  rw [hc, Ht.setVal_val_self]

/-- The entries are the same; the counters may not be. -/
structure SameEntries (s s' : Ht) : Prop where
  len : s'.len = s.len
  table : ∀ i, (s'.tables i).table = (s.tables i).table
  probe : ∀ i, (s'.tables i).probe = (s.tables i).probe
  scale : ∀ i, (s'.tables i).scale = (s.tables i).scale

/-- Lookups are the same. -/
theorem SameEntries.find_eq (h : SameEntries s s') : s'.find kt k i = s.find kt k i := by
  refine Hti.lookup_congr (h.probe i) (h.scale i) fun p => ?_
  unfold Hti.stopsAt
  rw [h.table]

/-- So are the keys. -/
theorem SameEntries.key_eq (h : SameEntries s s') : s'.key i e = s.key i e := by
  unfold Ht.key
  rw [h.table]

/-- So are the values. -/
theorem SameEntries.val_eq (h : SameEntries s s') : s'.val i e = s.val i e := by
  unfold Ht.val
  rw [h.table]

/-- So are the columns. -/
theorem SameEntries.cell_eq (h : SameEntries s s') : s'.cell kt k i = s.cell kt k i := by
  unfold Ht.cell
  rw [h.find_eq]
  simp only [h.key_eq, h.val_eq]

/-- A change of the counters of one table. -/
theorem SameEntries.setTable {h : Hti} (ht : h.table = (s.tables i).table)
    (hp : h.probe = (s.tables i).probe) (hs : h.scale = (s.tables i).scale) :
    SameEntries s (s.setTable i h) := by
  refine ⟨rfl, fun j => ?_, fun j => ?_, fun j => ?_⟩
  all_goals
    by_cases hj : j = i
    · subst hj
      rw [Ht.setTable_self]
      assumption
    · rw [Ht.setTable_of_ne _ hj]

end State

/-! ## The invariant -/

/-- The words that are found in the value of an entry. -/
def Stored (v : ℕ) : Prop :=
  v = doesNotExist ∨ v = tombstone ∨ Legal v ∨ Dead v ∨ ∃ u, Legal u ∧ v = tagValue u

/-- The invariant of the chain; from table `b` on it holds the map. -/
structure Inv (kt : KeyType) (s : Ht) (b : ℕ) : Prop where
  base_lt : b < s.len
  scale : ∀ i, i < s.len → minScale ≤ (s.tables i).scale
  good : ∀ i e, i < s.len → s.key i e ≠ doesNotExist → kt.Good (s.key i e)
  found : ∀ i e, i < s.len → s.key i e ≠ doesNotExist →
    s.find kt (kt.keyOf (s.key i e)) i = some e
  stored : ∀ i e, i < s.len → Stored (s.val i e)
  val_key : ∀ i e, i < s.len → s.val i e ≠ doesNotExist → s.val i e ≠ copiedValue →
    s.key i e ≠ doesNotExist
  next : ∀ i e, i < s.len → IsTagged (s.val i e) → i + 1 < s.len
  retired : ∀ i e, i < b → e < 2 ^ (s.tables i).scale → Dead (s.val i e)
  column : ∀ k, Ok (s.cell kt k) s.len b

/-- A change that leaves the value of every key as it is. -/
def Kept (kt : KeyType) (b : ℕ) (s s' : Ht) : Prop :=
  ∀ k, value (s'.cell kt k) b s'.len = value (s.cell kt k) b s.len

section Updates

variable {kt : KeyType} {s s' : Ht} {b i j e k v w : ℕ}

/-- No change keeps the map. -/
theorem Kept.refl (kt : KeyType) (b : ℕ) (s : Ht) : Kept kt b s s := fun _ => rfl

/-- One change after the other keeps it. -/
theorem Kept.trans {s'' : Ht} (h : Kept kt b s s') (h' : Kept kt b s' s'') : Kept kt b s s'' :=
  fun k => (h' k).trans (h k)

/-- The keys that are looked up at an entry with a key. -/
theorem Inv.find_iff (hkt : kt.Lawful) (hi : Inv kt s b) (hlt : i < s.len)
    (he : s.key i e ≠ doesNotExist) :
    s.find kt k i = some e ↔ kt.Same (kt.keyOf (s.key i e)) k := by
  constructor
  · intro hf
    exact KeyType.same_of_keyEq ((Hti.stopsAt_iff.mp (Hti.lookup_stops hf)).resolve_left he)
  · intro hs
    rw [← Ht.find_same hkt hs]
    exact hi.found i e hlt he

/-- What is not about entries keeps the invariant and the map. -/
theorem Inv.sameEntries (hi : Inv kt s b) (h : SameEntries s s') :
    Inv kt s' b ∧ Kept kt b s s' := by
  have hcell : ∀ k, s'.cell kt k = s.cell kt k := fun k => funext fun _ => h.cell_eq
  refine ⟨⟨?_, fun i hlt => ?_, fun i e hlt => ?_, fun i e hlt => ?_, fun i e hlt => ?_,
    fun i e hlt => ?_, fun i e hlt => ?_, fun i e hlt => ?_, fun k => ?_⟩, fun k => ?_⟩
  · rw [h.len]
    exact hi.base_lt
  · rw [h.len] at hlt
    rw [h.scale]
    exact hi.scale i hlt
  · rw [h.len] at hlt
    rw [h.key_eq]
    exact hi.good i e hlt
  · rw [h.len] at hlt
    rw [h.key_eq, h.find_eq]
    exact hi.found i e hlt
  · rw [h.len] at hlt
    rw [h.val_eq]
    exact hi.stored i e hlt
  · rw [h.len] at hlt
    rw [h.key_eq, h.val_eq]
    exact hi.val_key i e hlt
  · rw [h.len] at hlt ⊢
    rw [h.val_eq]
    exact hi.next i e hlt
  · rw [h.val_eq, h.scale]
    exact hi.retired i e hlt
  · rw [hcell, h.len]
    exact hi.column k
  · rw [hcell, h.len]

/-- The columns of the keys that are not looked up at the entry. -/
theorem Ht.cell_setVal_other (v : ℕ) (h : s.find kt k i = some e → s.key i e = doesNotExist) :
    (s.setVal i e v).cell kt k = s.cell kt k := by
  funext j
  by_cases hj : j = i ∧ s.find kt k i = some e
  · obtain ⟨rfl, hf⟩ := hj
    rw [Ht.cell_of_empty hf (h hf)]
    exact Ht.cell_of_empty (by rw [Ht.find_setVal]; exact hf) (by rw [Ht.setVal_key]; exact h hf)
  · exact Ht.cell_setVal v hj

/-- A store into table `i` changes columns at `i` only. -/
theorem Ht.cell_setVal_sameBut (v : ℕ) :
    SameBut i (s.cell kt k) ((s.setVal i e v).cell kt k) :=
  fun _ hj => Ht.cell_setVal v fun h => hj h.1

/-- **A store into a value** keeps the invariant when it keeps the columns of the key of
the entry in order. -/
theorem Inv.setVal (hi : Inv kt s b) (hlt : i < s.len) (hst : Stored v)
    (hkey : v ≠ doesNotExist → v ≠ copiedValue → s.key i e ≠ doesNotExist)
    (hnext : IsTagged v → i + 1 < s.len) (hret : i < b → Dead v)
    (hcol : ∀ k, s.find kt k i = some e → s.key i e ≠ doesNotExist →
      Ok ((s.setVal i e v).cell kt k) s.len b) : Inv kt (s.setVal i e v) b := by
  have hval : ∀ (P : ℕ → ℕ → ℕ → Prop), (∀ j f, P j f (s.val j f)) → P i e v →
      ∀ j f, P j f ((s.setVal i e v).val j f) := by
    intro P hP hPv j f
    by_cases h : j = i ∧ f = e
    · obtain ⟨rfl, rfl⟩ := h
      rw [Ht.setVal_val_self]
      exact hPv
    · rw [Ht.setVal_val_of_ne v h]
      exact hP j f
  refine ⟨hi.base_lt, fun j hj => ?_, fun j f hj => ?_, fun j f hj => ?_, ?_, ?_, ?_, ?_,
    fun k => ?_⟩
  · rw [Ht.setVal_scale]
    exact hi.scale j hj
  · rw [Ht.setVal_key]
    exact hi.good j f hj
  · rw [Ht.setVal_key, Ht.find_setVal]
    exact hi.found j f hj
  · exact hval (fun j _ u => j < s.len → Stored u) hi.stored fun _ => hst
  · intro j f hj h0 hc
    rw [Ht.setVal_key]
    exact hval (fun j f u => j < s.len → u ≠ doesNotExist → u ≠ copiedValue →
      s.key j f ≠ doesNotExist) hi.val_key (fun _ => hkey) j f hj h0 hc
  · exact hval (fun j _ u => j < s.len → IsTagged u → j + 1 < s.len) hi.next fun _ => hnext
  · intro j f hj hf
    rw [Ht.setVal_scale] at hf
    exact hval (fun j f u => j < b → f < 2 ^ (s.tables j).scale → Dead u) hi.retired
      (fun h _ => hret h) j f hj hf
  · by_cases h : s.find kt k i = some e ∧ s.key i e ≠ doesNotExist
    · exact hcol k h.1 h.2
    · have hother : s.find kt k i = some e → s.key i e = doesNotExist := fun hf =>
        not_not.mp fun hne => h ⟨hf, hne⟩
      rw [Ht.cell_setVal_other v hother]
      exact hi.column k

/-- The same for the values of the keys. -/
theorem Kept.setVal (hcol : ∀ k, s.find kt k i = some e → s.key i e ≠ doesNotExist →
      value ((s.setVal i e v).cell kt k) b s.len = value (s.cell kt k) b s.len) :
    Kept kt b s (s.setVal i e v) := by
  intro k
  show value ((s.setVal i e v).cell kt k) b s.len = _
  by_cases h : s.find kt k i = some e ∧ s.key i e ≠ doesNotExist
  · exact hcol k h.1 h.2
  · have hother : s.find kt k i = some e → s.key i e = doesNotExist := fun hf =>
      not_not.mp fun hne => h ⟨hf, hne⟩
    rw [Ht.cell_setVal_other v hother]

/-- An entry that takes values is not in a table that the readers have left behind. -/
theorem Inv.base_le (hi : Inv kt s b) (he : e < 2 ^ (s.tables i).scale)
    (hv : ¬ Dead (s.val i e)) : b ≤ i := by
  by_contra hlt
  exact hv (hi.retired i e (Nat.lt_of_not_le hlt) he)

/-- Kill an empty entry, or tag a value. -/
theorem Inv.shut (hi : Inv kt s b) (he : e < 2 ^ (s.tables i).scale)
    (hnext : i + 1 < s.len)
    (hv : (s.val i e = doesNotExist ∧ v = copiedValue)
      ∨ (s.val i e = tombstone ∧ v = tagValue tombstone)
      ∨ (Legal (s.val i e) ∧ v = tagValue (s.val i e))) :
    Inv kt (s.setVal i e v) b ∧ Kept kt b s (s.setVal i e v) := by
  have hlt : i < s.len := by omega
  have hdead : ¬ Dead (s.val i e) := by
    intro hd
    have ht := hd.isTagged
    rcases hv with ⟨h, _⟩ | ⟨h, _⟩ | ⟨h, _⟩
    · rw [h] at ht
      exact absurd ht (by decide)
    · rw [h] at ht
      exact absurd ht (by decide)
    · exact h.2.1 ht
  have hbi := hi.base_le he hdead
  have hst : Stored v := by
    rcases hv with ⟨_, h⟩ | ⟨_, h⟩ | ⟨h, h'⟩
    · exact Or.inr (Or.inr (Or.inr (Or.inl (Or.inl h))))
    · exact Or.inr (Or.inr (Or.inr (Or.inl (Or.inr h))))
    · exact Or.inr (Or.inr (Or.inr (Or.inr ⟨_, h, h'⟩)))
  have hkey : v ≠ doesNotExist → v ≠ copiedValue → s.key i e ≠ doesNotExist := by
    intro _ hc
    rcases hv with ⟨_, h⟩ | ⟨h, _⟩ | ⟨h, _⟩
    · exact absurd h hc
    · refine hi.val_key i e hlt ?_ ?_ <;> rw [h] <;> decide
    · exact hi.val_key i e hlt h.1 fun h' => hdead (Or.inl h')
  have hcol : ∀ k, s.find kt k i = some e → s.key i e ≠ doesNotExist →
      Ok ((s.setVal i e v).cell kt k) s.len b
        ∧ value ((s.setVal i e v).cell kt k) b s.len = value (s.cell kt k) b s.len := by
    intro k hf hne
    refine (hi.column k).shut (Ht.cell_setVal_sameBut v) hbi hlt ?_
    rw [Ht.cell_of_key hf hne, Ht.cell_setVal_self v hf hne]
    rcases hv with ⟨h, h'⟩ | ⟨h, h'⟩ | ⟨h, h'⟩
    · refine Or.inl ?_
      rw [h, h']
      exact ⟨cellOf_blank, cellOf_copied⟩
    · refine Or.inr (Or.inl ?_)
      rw [h, h']
      exact ⟨cellOf_tomb, cellOf_buried⟩
    · refine Or.inr (Or.inr ⟨_, cellOf_live h, ?_⟩)
      rw [h']
      exact cellOf_moving h
  exact ⟨hi.setVal hlt hst hkey (fun _ => hnext) (fun h => absurd h (by omega))
    fun k hf hne => (hcol k hf hne).1, Kept.setVal fun k hf hne => (hcol k hf hne).2⟩

/-- The columns of two keys that are the same. -/
theorem Ht.column_same (hkt : kt.Lawful) {k' : ℕ} (hs : kt.Same k k') :
    s.cell kt k = s.cell kt k' := funext fun _ => Ht.cell_same hkt hs

/-- A value of the map is not dead. -/
theorem Legal.not_dead (h : Legal v) : ¬ Dead v := fun hd => h.2.1 hd.isTagged

/-- Nor is it when it is tagged. -/
theorem Legal.tagValue_not_dead (h : Legal v) : ¬ Dead (tagValue v) := by
  intro hd
  have hp := cellOf_passed_iff.mpr hd
  rw [cellOf_moving h] at hp
  exact hp

/-- An entry with a tagged value has a key. -/
theorem Legal.tagValue_key (hi : Inv kt s b) (hlt : i < s.len) (hl : Legal v)
    (hv : s.val i e = tagValue v) : s.key i e ≠ doesNotExist := by
  have hd := hl.tagValue_not_dead
  rw [← hv] at hd
  refine hi.val_key i e hlt (fun h0 => ?_) fun hc => hd (Or.inl hc)
  have ht := isTagged_tagValue v
  rw [← hv, h0] at ht
  exact absurd ht (by decide)

/-- The value of an entry that is being copied is put into the entry that the copier of it
gets to. -/
theorem Inv.arrive (hkt : kt.Lawful) (hi : Inv kt s b) {i₀ e₀ : ℕ} (hl : Legal v)
    (hsrc : s.val i₀ e₀ = tagValue v) (he₀ : e₀ < 2 ^ (s.tables i₀).scale) (hlt₀ : i₀ < i)
    (hlt : i < s.len) (hkey : s.key i e ≠ doesNotExist) (hv : s.val i e = doesNotExist)
    (hf : s.find kt (kt.keyOf (s.key i₀ e₀)) i = some e)
    (hskip : ∀ m, i₀ + 1 ≤ m → m < i → (s.cell kt (kt.keyOf (s.key i₀ e₀)) m).Skipped) :
    Inv kt (s.setVal i e v) b ∧ Kept kt b s (s.setVal i e v) := by
  have hbi : b ≤ i₀ := by
    refine hi.base_le he₀ ?_
    rw [hsrc]
    exact hl.tagValue_not_dead
  have hkey₀ := Legal.tagValue_key hi (hlt₀.trans hlt) hl hsrc
  have hcol : ∀ k, s.find kt k i = some e → s.key i e ≠ doesNotExist →
      Ok ((s.setVal i e v).cell kt k) s.len b
        ∧ value ((s.setVal i e v).cell kt k) b s.len = value (s.cell kt k) b s.len := by
    intro k hfk hne
    -- the key of the source entry
    have hsame : kt.Same (kt.keyOf (s.key i₀ e₀)) k := by
      have h₁ := (hi.find_iff hkt hlt hkey).mp hf
      have h₂ := (hi.find_iff hkt hlt hkey).mp hfk
      exact (h₁.symm hkt).trans hkt h₂
    have hk₀ : s.cell kt k i₀ = .moving v := by
      rw [Ht.cell_of_key ((hi.find_iff hkt (hlt₀.trans hlt) hkey₀).mpr hsame) hkey₀, hsrc]
      exact cellOf_moving hl
    have hblank : s.cell kt k i = .blank := by
      rw [Ht.cell_of_key hfk hne, hv]
      exact cellOf_blank
    have hlive : (s.setVal i e v).cell kt k i = .live v := by
      rw [Ht.cell_setVal_self v hfk hne]
      exact cellOf_live hl
    refine (hi.column k).arrive (Ht.cell_setVal_sameBut v) hlt hblank hlive hbi hlt₀ hk₀ ?_
    rw [← Ht.column_same hkt hsame]
    exact hskip
  exact ⟨hi.setVal hlt (Or.inr (Or.inr (Or.inl hl))) (fun _ _ => hkey)
    (fun h => absurd h hl.2.1) (fun h => absurd h (by omega)) fun k hf hne => (hcol k hf hne).1,
    Kept.setVal fun k hf hne => (hcol k hf hne).2⟩

/-- The value of an entry that has been copied is given away. -/
theorem Inv.finish (hkt : kt.Lawful) (hi : Inv kt s b) (hlt : i < s.len) (hl : Legal v)
    (hv : s.val i e = tagValue v) (he : e < 2 ^ (s.tables i).scale)
    (harr : Arrived (s.cell kt (kt.keyOf (s.key i e))) (i + 1) s.len v) :
    Inv kt (s.setVal i e copiedValue) b ∧ Kept kt b s (s.setVal i e copiedValue) := by
  have hbi : b ≤ i := by
    refine hi.base_le he ?_
    rw [hv]
    exact hl.tagValue_not_dead
  have hnext := hi.next i e hlt (by rw [hv]; exact isTagged_tagValue v)
  have hcol : ∀ k, s.find kt k i = some e → s.key i e ≠ doesNotExist →
      Ok ((s.setVal i e copiedValue).cell kt k) s.len b
        ∧ value ((s.setVal i e copiedValue).cell kt k) b s.len = value (s.cell kt k) b s.len := by
    intro k hf hne
    have hsame := (hi.find_iff hkt hlt hne).mp hf
    have hm : s.cell kt k i = .moving v := by
      rw [Ht.cell_of_key hf hne, hv]
      exact cellOf_moving hl
    have hc : (s.setVal i e copiedValue).cell kt k i = .copied := by
      rw [Ht.cell_setVal_self _ hf hne]
      exact cellOf_copied
    rw [Ht.column_same hkt hsame] at harr
    exact (hi.column k).finish (Ht.cell_setVal_sameBut _) hbi hlt hm hc harr
  exact ⟨hi.setVal hlt (Or.inr (Or.inr (Or.inr (Or.inl (Or.inl rfl))))) (fun _ h => absurd rfl h)
    (fun _ => hnext) (fun _ => Or.inl rfl) fun k hf hne => (hcol k hf hne).1,
    Kept.setVal fun k hf hne => (hcol k hf hne).2⟩

/-- What a value means to the callers. -/
def meaning (v : ℕ) : Option ℕ := if v = doesNotExist ∨ v = tombstone then none else some v

/-- A reader gets what an open entry means. -/
theorem cellOf_read (hst : Stored v) (ht : ¬ IsTagged v) : (cellOf v).read = some (meaning v) := by
  rcases hst with rfl | rfl | hl | hd | ⟨u, _, rfl⟩
  · rfl
  · rfl
  · rw [cellOf_live hl, meaning, if_neg (not_or.mpr ⟨hl.1, hl.2.2⟩)]
    rfl
  · exact absurd hd.isTagged ht
  · exact absurd (isTagged_tagValue u) ht

/-- **The update** of `hti_cas`: it changes the value of its key, and of no other one. -/
theorem Inv.write (hkt : kt.Lawful) (hi : Inv kt s b) (hlt : i < s.len)
    (he : e < 2 ^ (s.tables i).scale) (hkey : s.key i e ≠ doesNotExist)
    (ht : ¬ IsTagged (s.val i e)) (hv : v = tombstone ∨ Legal v)
    (hpass : ∀ m, b ≤ m → m < i → (s.cell kt (kt.keyOf (s.key i e)) m).Passed) :
    Inv kt (s.setVal i e v) b
      ∧ (∀ k, kt.Same (kt.keyOf (s.key i e)) k →
        value (s.cell kt k) b s.len = meaning (s.val i e)
          ∧ value ((s.setVal i e v).cell kt k) b s.len = meaning v)
      ∧ ∀ k, ¬ kt.Same (kt.keyOf (s.key i e)) k →
        value ((s.setVal i e v).cell kt k) b s.len = value (s.cell kt k) b s.len := by
  have hbi : b ≤ i := hi.base_le he fun hd => ht hd.isTagged
  have hst : Stored v := hv.elim (fun h => Or.inr (Or.inl h)) fun h => Or.inr (Or.inr (Or.inl h))
  have ht' : ¬ IsTagged v := by
    rcases hv with rfl | hl
    · decide
    · exact hl.2.1
  have hcol : ∀ k, kt.Same (kt.keyOf (s.key i e)) k →
      Ok ((s.setVal i e v).cell kt k) s.len b
        ∧ value (s.cell kt k) b s.len = meaning (s.val i e)
        ∧ value ((s.setVal i e v).cell kt k) b s.len = meaning v := by
    intro k hsame
    have hf := (hi.find_iff hkt hlt hkey).mpr hsame
    rw [Ht.column_same hkt hsame] at hpass
    have hc := Ht.cell_of_key hf hkey
    have hc' := Ht.cell_setVal_self v hf hkey
    have hopen : (s.cell kt k i).Open := by
      rw [hc]
      exact cellOf_open_iff.mpr ht
    have hopen' : ((s.setVal i e v).cell kt k i).Open := by
      rw [hc']
      exact cellOf_open_iff.mpr ht'
    obtain ⟨hok, hval⟩ := (hi.column k).write (Ht.cell_setVal_sameBut v) hbi hlt hopen hopen' hpass
    refine ⟨hok, ?_, hval _ ?_⟩
    · rw [value_of_passed hbi hlt.le hpass]
      refine value_of_read hlt ?_
      rw [hc]
      exact cellOf_read (hi.stored i e hlt) ht
    · rw [hc']
      exact cellOf_read hst ht'
  refine ⟨hi.setVal hlt hst (fun _ _ => hkey) (fun h => absurd h ht') (fun h => absurd h (by omega))
    fun k hf hne => ?_, fun k hsame => (hcol k hsame).2, fun k hsame => ?_⟩
  · exact (hcol k ((hi.find_iff hkt hlt hne).mp hf)).1
  · rw [Ht.cell_setVal_other v fun hf => absurd ((hi.find_iff hkt hlt hkey).mp hf) hsame]

/-- What a key in an empty entry does to the lookups: those of the key find it, those that
stopped at the entry before go on, and all others stop where they did. -/
theorem Inv.cell_setKey (hkt : kt.Lawful) (hi : Inv kt s b) (hlt : i < s.len)
    (he : s.key i e = doesNotExist) (hw : kt.Good w) (hf : s.find kt (kt.keyOf w) i = some e) :
    (∀ k, (s.setKey i e w).cell kt k i = s.cell kt k i
      ∨ (s.cell kt k i = .vacant
        ∧ ((s.setKey i e w).cell kt k i = .full ∨ (s.setKey i e w).cell kt k i = .vacant
          ∨ (s.setKey i e w).cell kt k i = .blank ∨ (s.setKey i e w).cell kt k i = .copied)
        ∧ (((s.setKey i e w).cell kt k i).Installed → kt.Same (kt.keyOf w) k)))
    ∧ ∀ j f, j < s.len → (s.setKey i e w).key j f ≠ doesNotExist →
      (s.setKey i e w).find kt (kt.keyOf ((s.setKey i e w).key j f)) j = some f := by
  have hfind : ∀ k, (s.setKey i e w).find kt k i
      = ((s.tables i).setKey e w).lookup kt k (kt.hash k) := by
    intro k
    unfold Ht.find Ht.setKey
    rw [Ht.setTable_self]
  have hstay : ∀ k, s.find kt k i ≠ some e →
      (s.setKey i e w).find kt k i = s.find kt k i := fun k h =>
    (hfind k).trans ((Hti.lookup_setKey he hw.1).1 h)
  have hself : ∀ k, kt.Same (kt.keyOf w) k → (s.setKey i e w).find kt k i = some e := by
    intro k hs
    refine (hfind k).trans ((Hti.lookup_setKey he hw.1).2.1 ?_ ((hw.keyEq_iff hkt k).mpr hs))
    exact (Ht.find_same hkt hs).symm.trans hf
  have hgone : ∀ k, ¬ kt.Same (kt.keyOf w) k → (s.setKey i e w).find kt k i ≠ some e := by
    intro k hs
    rw [hfind k]
    exact (Hti.lookup_setKey he hw.1).2.2 fun h => hs ((hw.keyEq_iff hkt k).mp h)
  constructor
  · intro k
    by_cases hk : s.find kt k i = some e
    · refine Or.inr ⟨Ht.cell_of_empty hk he, ?_⟩
      by_cases hs : kt.Same (kt.keyOf w) k
      · have hc : (s.setKey i e w).cell kt k i = cellOf (s.val i e) := by
          rw [Ht.cell_of_key (hself k hs) (by rw [Ht.setKey_key_self]; exact hw.1), Ht.setKey_val]
        refine ⟨?_, fun _ => hs⟩
        rw [hc]
        by_cases h0 : s.val i e = doesNotExist
        · rw [h0]
          exact Or.inr (Or.inr (Or.inl cellOf_blank))
        · by_cases h1 : s.val i e = copiedValue
          · rw [h1]
            exact Or.inr (Or.inr (Or.inr cellOf_copied))
          · exact absurd he (hi.val_key i e hlt h0 h1)
      · -- another key that stopped at this entry is not in the table
        rcases hf' : (s.setKey i e w).find kt k i with _ | e'
        · rw [Ht.cell_of_none hf']
          exact ⟨Or.inl rfl, fun h => h.elim⟩
        · have hne : e' ≠ e := by
            rintro rfl
            exact hgone k hs hf'
          have hkey' : (s.setKey i e w).key i e' = s.key i e' :=
            Ht.setKey_key_of_ne w fun h => hne h.2
          have hempty : (s.setKey i e w).key i e' = doesNotExist := by
            by_contra h
            rw [hkey'] at h
            have hstop := Hti.stopsAt_iff.mp (Hti.lookup_stops hf')
            have hk' := hstop.resolve_left (by
              show (s.setKey i e w).key i e' ≠ doesNotExist
              rw [hkey']
              exact h)
            have hs' : kt.Same (kt.keyOf (s.key i e')) k := by
              rw [← hkey']
              exact KeyType.same_of_keyEq hk'
            have := (hi.find_iff hkt hlt h).mpr hs'
            rw [hk] at this
            exact hne (Option.some.inj this).symm
          rw [Ht.cell_of_empty hf' hempty]
          exact ⟨Or.inr (Or.inl rfl), fun h => h.elim⟩
    · refine Or.inl ?_
      unfold Ht.cell
      rw [hstay k hk]
      split
      · rfl
      · rename_i e' he'
        have hne : ¬ (i = i ∧ e' = e) := by
          rintro ⟨_, rfl⟩
          exact hk he'
        rw [Ht.setKey_key_of_ne w hne, Ht.setKey_val]
  · intro j f hj hne
    by_cases h : j = i ∧ f = e
    · obtain ⟨rfl, rfl⟩ := h
      rw [Ht.setKey_key_self]
      exact hself _ (KeyType.Same.refl hkt _)
    · rw [Ht.setKey_key_of_ne w h] at hne ⊢
      have hold := hi.found j f hj hne
      by_cases hji : j = i
      · subst hji
        rw [hstay _ fun heq => ?_]
        · exact hold
        · rw [hold] at heq
          exact h ⟨rfl, Option.some.inj heq⟩
      · rw [Ht.find_setKey_of_ne w hji]
        exact hold

/-- **A key comes into an empty entry** that is where a lookup of it stops. -/
theorem Inv.install (hkt : kt.Lawful) (hi : Inv kt s b) (hlt : i < s.len)
    (he : s.key i e = doesNotExist) (hw : kt.Good w) (hf : s.find kt (kt.keyOf w) i = some e)
    (hbelow : ∀ m, b ≤ m → m < i → s.cell kt (kt.keyOf w) m = .full
      ∨ (s.cell kt (kt.keyOf w) m).Tagged) :
    Inv kt (s.setKey i e w) b ∧ Kept kt b s (s.setKey i e w) := by
  have hsameBut : ∀ k, SameBut i (s.cell kt k) ((s.setKey i e w).cell kt k) := by
    intro k j hj
    unfold Ht.cell
    rw [Ht.find_setKey_of_ne w hj]
    split
    · rfl
    · rw [Ht.setKey_key_of_ne w fun h => hj h.1, Ht.setKey_val]
  obtain ⟨hat, hfound⟩ := hi.cell_setKey hkt hlt he hw hf
  have hcol : ∀ k, Ok ((s.setKey i e w).cell kt k) s.len b
      ∧ value ((s.setKey i e w).cell kt k) b s.len = value (s.cell kt k) b s.len := by
    intro k
    rcases Nat.lt_or_ge i b with hib | hbi
    · have hsame : ∀ m, b ≤ m → m < s.len → (s.setKey i e w).cell kt k m = s.cell kt k m :=
        fun m hm _ => hsameBut k m (by omega)
      exact ⟨(hi.column k).congr hsame, value_congr hsame⟩
    · rcases hat k with heq | ⟨hv, hc, hins⟩
      · have hsame : (s.setKey i e w).cell kt k = s.cell kt k := by
          funext m
          by_cases hm : m = i
          · rw [hm]
            exact heq
          · exact hsameBut k m hm
        rw [hsame]
        exact ⟨hi.column k, rfl⟩
      · refine (hi.column k).of_vacant (hsameBut k) hbi hlt hv hc fun h => ?_
        rw [← Ht.column_same hkt (hins h)]
        exact hbelow
  have hkey : ∀ (P : ℕ → ℕ → ℕ → Prop), (∀ j f, P j f (s.key j f)) → P i e w →
      ∀ j f, P j f ((s.setKey i e w).key j f) := by
    intro P hP hPw j f
    by_cases h : j = i ∧ f = e
    · obtain ⟨rfl, rfl⟩ := h
      rw [Ht.setKey_key_self]
      exact hPw
    · rw [Ht.setKey_key_of_ne w h]
      exact hP j f
  refine ⟨⟨hi.base_lt, fun j hj => ?_, ?_, hfound, fun j f hj => ?_, fun j f hj h0 hc => ?_,
    fun j f hj => ?_, fun j f hj hlt => ?_, fun k => (hcol k).1⟩, fun k => (hcol k).2⟩
  · rw [Ht.setKey_scale]
    exact hi.scale j hj
  · exact hkey (fun j _ u => j < s.len → u ≠ doesNotExist → kt.Good u) hi.good fun _ _ => hw
  · rw [Ht.setKey_val]
    exact hi.stored j f hj
  · rw [Ht.setKey_val] at h0 hc
    exact hkey (fun j f u => j < s.len → s.val j f ≠ doesNotExist → s.val j f ≠ copiedValue →
      u ≠ doesNotExist) hi.val_key (fun _ _ _ => hw.1) j f hj h0 hc
  · rw [Ht.setKey_val]
    exact hi.next j f hj
  · rw [Ht.setKey_scale] at hlt
    rw [Ht.setKey_val]
    exact hi.retired j f hj hlt

/-- `hti_lookup` looks at one bucket at least. -/
theorem htiAlloc_probe_pos (scale : ℕ) : 0 < (htiAlloc scale).probe := by
  unfold htiAlloc
  simp only
  split_ifs <;> omega

/-- A table that was just allocated has room for every key. -/
theorem htiAlloc_lookup (kt : KeyType) (scale k keyHash : ℕ) :
    ∃ e, (htiAlloc scale).lookup kt k keyHash = some e := by
  obtain ⟨n, hn⟩ : ∃ n, (htiAlloc scale).probe = n + 1 :=
    ⟨(htiAlloc scale).probe - 1, by have := htiAlloc_probe_pos scale; omega⟩
  have hp : ∃ e rest, (htiAlloc scale).probes keyHash = e :: rest := by
    unfold Hti.probes
    rw [hn]
    exact ⟨_, _, rfl⟩
  obtain ⟨e, rest, hp⟩ := hp
  have hp' : (htiAlloc scale).probes keyHash = [] ++ e :: rest := hp
  exact ⟨e, Hti.lookup_of_split hp' (fun _ h => absurd h List.not_mem_nil)
    (Hti.stopsAt_iff.mpr (Or.inl rfl))⟩

section Append

variable (h : Hti)

/-- The other tables are as they were. -/
theorem Ht.append_of_ne (hj : j ≠ s.len) : (s.append h).tables j = s.tables j :=
  Function.update_of_ne hj _ _

/-- The table that was appended. -/
theorem Ht.append_self : (s.append h).tables s.len = h := Function.update_self _ _ _

/-- The keys of the other tables are as they were. -/
theorem Ht.append_key (hj : j ≠ s.len) : (s.append h).key j e = s.key j e := by
  unfold Ht.key
  rw [Ht.append_of_ne h hj]

/-- So are their values. -/
theorem Ht.append_val (hj : j ≠ s.len) : (s.append h).val j e = s.val j e := by
  unfold Ht.val
  rw [Ht.append_of_ne h hj]

/-- So are their lookups. -/
theorem Ht.append_find (hj : j ≠ s.len) : (s.append h).find kt k j = s.find kt k j := by
  unfold Ht.find
  rw [Ht.append_of_ne h hj]

/-- So are the columns there. -/
theorem Ht.append_cell (hj : j ≠ s.len) : (s.append h).cell kt k j = s.cell kt k j := by
  unfold Ht.cell
  rw [Ht.append_find h hj]
  simp only [Ht.append_key h hj, Ht.append_val h hj]

/-- A new table has no keys. -/
theorem Ht.append_alloc_key (scale : ℕ) :
    (s.append (htiAlloc scale)).key s.len e = doesNotExist := by
  unfold Ht.key
  rw [Ht.append_self]
  rfl

/-- It has no values. -/
theorem Ht.append_alloc_val (scale : ℕ) :
    (s.append (htiAlloc scale)).val s.len e = doesNotExist := by
  unfold Ht.val
  rw [Ht.append_self]
  rfl

/-- Every key finds an empty entry in it. -/
theorem Ht.append_alloc_find (scale : ℕ) :
    ∃ e, (s.append (htiAlloc scale)).find kt k s.len = some e := by
  unfold Ht.find
  rw [Ht.append_self]
  exact htiAlloc_lookup kt scale k (kt.hash k)

end Append

/-- A new table is installed behind the last one. -/
theorem Inv.append (hi : Inv kt s b) {scale : ℕ} (hs : minScale ≤ scale) :
    Inv kt (s.append (htiAlloc scale)) b ∧ Kept kt b s (s.append (htiAlloc scale)) := by
  have hold : ∀ j, j ≠ s.len → (s.append (htiAlloc scale)).tables j = s.tables j := fun j hj =>
    Ht.append_of_ne _ hj
  have hnew : (s.append (htiAlloc scale)).tables s.len = htiAlloc scale := Ht.append_self _
  have hkey : ∀ e, (s.append (htiAlloc scale)).key s.len e = doesNotExist := fun e =>
    Ht.append_alloc_key scale
  have hval : ∀ e, (s.append (htiAlloc scale)).val s.len e = doesNotExist := fun e =>
    Ht.append_alloc_val scale
  have hkeyold : ∀ j e, j ≠ s.len → (s.append (htiAlloc scale)).key j e = s.key j e :=
    fun j e hj => Ht.append_key _ hj
  have hvalold : ∀ j e, j ≠ s.len → (s.append (htiAlloc scale)).val j e = s.val j e :=
    fun j e hj => Ht.append_val _ hj
  have hfindold : ∀ k j, j ≠ s.len →
      (s.append (htiAlloc scale)).find kt k j = s.find kt k j := fun k j hj => Ht.append_find _ hj
  have hcol : ∀ k, Ok ((s.append (htiAlloc scale)).cell kt k) (s.len + 1) b
      ∧ value ((s.append (htiAlloc scale)).cell kt k) b (s.len + 1)
        = value (s.cell kt k) b s.len := by
    intro k
    refine (hi.column k).append (fun j hj => Ht.append_cell _ hj) hi.base_lt.le ?_
    obtain ⟨e, he⟩ := (Ht.append_alloc_find scale : ∃ e, (s.append (htiAlloc scale)).find kt k s.len = some e)
    exact Ht.cell_of_empty he (hkey e)
  have hlt : ∀ j, j < s.len + 1 → j ≠ s.len → j < s.len := fun j h h' => by omega
  refine ⟨⟨Nat.lt_succ_of_lt hi.base_lt, fun j hj => ?_, fun j e hj hne => ?_, fun j e hj hne => ?_,
    fun j e hj => ?_, fun j e hj h0 hc => ?_, fun j e hj ht => ?_, fun j e hj he => ?_,
    fun k => (hcol k).1⟩, fun k => (hcol k).2⟩
  · by_cases h : j = s.len
    · rw [h, hnew]
      exact hs
    · rw [hold j h]
      exact hi.scale j (hlt j hj h)
  · have h : j ≠ s.len := by
      rintro rfl
      exact hne (hkey e)
    rw [hkeyold j e h] at hne ⊢
    exact hi.good j e (hlt j hj h) hne
  · have h : j ≠ s.len := by
      rintro rfl
      exact hne (hkey e)
    rw [hkeyold j e h] at hne ⊢
    rw [hfindold _ j h]
    exact hi.found j e (hlt j hj h) hne
  · by_cases h : j = s.len
    · rw [h, hval]
      exact Or.inl rfl
    · rw [hvalold j e h]
      exact hi.stored j e (hlt j hj h)
  · have h : j ≠ s.len := by
      rintro rfl
      exact h0 (hval e)
    rw [hvalold j e h] at h0 hc
    rw [hkeyold j e h]
    exact hi.val_key j e (hlt j hj h) h0 hc
  · have h : j ≠ s.len := by
      rintro rfl
      rw [hval] at ht
      exact absurd ht (by decide)
    rw [hvalold j e h] at ht
    exact (hi.next j e (hlt j hj h) ht).trans (Nat.lt_succ_self _)
  · have h : j ≠ s.len := (hj.trans hi.base_lt).ne
    rw [hold j h] at he
    rw [hvalold j e h]
    exact hi.retired j e hj he

/-- A table all of whose entries are dead is left behind. -/
theorem Inv.retire (hi : Inv kt s b) (hb : b + 1 < s.len)
    (hdead : ∀ e, e < 2 ^ (s.tables b).scale → Dead (s.val b e)) :
    Inv kt s (b + 1)
      ∧ ∀ k, value (s.cell kt k) (b + 1) s.len = value (s.cell kt k) b s.len := by
  have hcell : ∀ k, (s.cell kt k b).Passed ∨ s.cell kt k b = .vacant := by
    intro k
    rcases hf : s.find kt k b with _ | e
    · rw [Ht.cell_of_none hf]
      exact Or.inl trivial
    · by_cases hk : s.key b e = doesNotExist
      · exact Or.inr (Ht.cell_of_empty hf hk)
      · have hscale : 2 ≤ (s.tables b).scale := (by decide : 2 ≤ minScale).trans (hi.scale b hi.base_lt)
        rw [Ht.cell_of_key hf hk]
        exact Or.inl (cellOf_passed_iff.mpr (hdead e (Hti.lookup_lt hscale hf)))
  have hcol := fun k => (hi.column k).retire hi.base_lt (hcell k)
  refine ⟨⟨hb, hi.scale, hi.good, hi.found, hi.stored, hi.val_key, hi.next, fun i e hlt he => ?_,
    fun k => (hcol k).1⟩, fun k => (hcol k).2⟩
  rcases Nat.lt_succ_iff_lt_or_eq.mp hlt with hlt | rfl
  · exact hi.retired i e hlt he
  · exact hdead e he

/-- The table of `ht_alloc` meets the invariant. -/
theorem htAlloc_inv (kt : KeyType) : Inv kt htAlloc 0 := by
  have hkey : ∀ i e, htAlloc.key i e = doesNotExist := fun _ _ => rfl
  have hval : ∀ i e, htAlloc.val i e = doesNotExist := fun _ _ => rfl
  have hcell : ∀ k i, htAlloc.cell kt k i = .vacant := by
    intro k i
    obtain ⟨e, he⟩ := htiAlloc_lookup kt minScale k (kt.hash k)
    exact Ht.cell_of_empty he (hkey i e)
  refine ⟨Nat.zero_lt_one, fun _ _ => le_rfl, fun i e _ h => absurd (hkey i e) h,
    fun i e _ h => absurd (hkey i e) h, fun i e _ => Or.inl (hval i e),
    fun i e _ h => absurd (hval i e) h, fun i e _ h => ?_, fun i e h => absurd h (Nat.not_lt_zero i),
    fun k => ⟨fun i j _ hij hj hins => ?_, fun i v _ _ hm => ?_⟩⟩
  · rw [hval] at h
    exact absurd h (by decide)
  · rw [hcell] at hins
    exact hins.elim
  · rw [hcell] at hm
    cases hm

end Updates

end Hashtable
