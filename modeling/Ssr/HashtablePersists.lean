/-
# What stays as it is in the tables

An entry keeps its key, a dead one stays dead, and a table keeps its size.

* `Persists` — this;
* `Persists.find_some`, `Persists.find_none` — a lookup finds the same again;
* `Persists.passed` — a key goes past a table for good.
-/
import Ssr.HashtableChain

open Map Migration

namespace Hashtable

/-- What all stores into the tables keep. -/
structure Persists (h h' : Ht) : Prop where
  len : h.len ≤ h'.len
  scale : ∀ i, i < h.len → (h'.tables i).scale = (h.tables i).scale
  probe : ∀ i, i < h.len → (h'.tables i).probe = (h.tables i).probe
  key : ∀ i e, i < h.len → h.key i e ≠ doesNotExist → h'.key i e = h.key i e
  dead : ∀ i e, i < h.len → Dead (h.val i e) → h'.val i e = h.val i e

section Persists

variable {kt : KeyType} {h h' h'' : Ht} {k i e v w : ℕ}

theorem Persists.refl (h : Ht) : Persists h h :=
  ⟨le_rfl, fun _ _ => rfl, fun _ _ => rfl, fun _ _ _ _ => rfl, fun _ _ _ _ => rfl⟩

theorem Persists.trans (hp : Persists h h') (hp' : Persists h' h'') : Persists h h'' where
  len := hp.len.trans hp'.len
  scale i hi := (hp'.scale i (hi.trans_le hp.len)).trans (hp.scale i hi)
  probe i hi := (hp'.probe i (hi.trans_le hp.len)).trans (hp.probe i hi)
  key i e hi hne := by
    have heq := hp.key i e hi hne
    exact (hp'.key i e (hi.trans_le hp.len) (heq ▸ hne)).trans heq
  dead i e hi hd := by
    have heq := hp.dead i e hi hd
    exact (hp'.dead i e (hi.trans_le hp.len) (heq ▸ hd)).trans heq

theorem Persists.sameEntries (hs : SameEntries h h') : Persists h h' where
  len := hs.len.ge
  scale i _ := hs.scale i
  probe i _ := hs.probe i
  key _ _ _ _ := hs.key_eq
  dead _ _ _ _ := hs.val_eq

/-- A store into an entry that is not dead. -/
theorem Persists.setVal (hd : ¬ Dead (h.val i e)) (v : ℕ) : Persists h (h.setVal i e v) where
  len := le_rfl
  scale _ _ := Ht.setVal_scale v
  probe j _ := by
    by_cases hj : j = i
    · subst hj
      simp [Ht.setVal, Hti.setVal]
    · simp [Ht.setVal, Ht.setTable_of_ne _ hj]
  key _ _ _ _ := Ht.setVal_key v
  dead j f _ hdead := by
    by_cases hj : j = i ∧ f = e
    · obtain ⟨rfl, rfl⟩ := hj
      exact absurd hdead hd
    · exact Ht.setVal_val_of_ne v hj

/-- A key comes into an empty entry. -/
theorem Persists.setKey (he : h.key i e = doesNotExist) (w : ℕ) : Persists h (h.setKey i e w) where
  len := le_rfl
  scale _ _ := Ht.setKey_scale w
  probe j _ := by
    by_cases hj : j = i
    · subst hj
      simp [Ht.setKey, Hti.setKey]
    · simp [Ht.setKey, Ht.setTable_of_ne _ hj]
  key j f _ hne := by
    by_cases hj : j = i ∧ f = e
    · obtain ⟨rfl, rfl⟩ := hj
      exact absurd he hne
    · exact Ht.setKey_key_of_ne w hj
  dead _ _ _ _ := Ht.setKey_val w

theorem Persists.append (h : Ht) (t : Hti) : Persists h (h.append t) where
  len := Nat.le_succ _
  scale i hi := by rw [Ht.append_of_ne t hi.ne]
  probe i hi := by rw [Ht.append_of_ne t hi.ne]
  key _ _ hi _ := Ht.append_key t hi.ne
  dead _ _ hi _ := Ht.append_val t hi.ne

theorem Persists.setHti (h : Ht) (x : ℕ) : Persists h { h with hti := x } :=
  Persists.sameEntries ⟨rfl, fun _ => rfl, fun _ => rfl, fun _ => rfl⟩

/-! ## Lookups -/

theorem Persists.probes_eq (hp : Persists h h') (hi : i < h.len) (keyHash : ℕ) :
    (h'.tables i).probes keyHash = (h.tables i).probes keyHash := by
  unfold Hti.probes
  rw [hp.scale i hi, hp.probe i hi]

/-- An entry that another key took does not stop the lookup. -/
theorem Persists.not_stopsAt (hp : Persists h h') (hi : i < h.len) {keyHash x : ℕ}
    (hx : ¬ (h.tables i).stopsAt kt k keyHash x = true) :
    ¬ (h'.tables i).stopsAt kt k keyHash x = true := by
  rw [Hti.stopsAt_iff] at hx ⊢
  have hne : h.key i x ≠ doesNotExist := fun h0 => hx (Or.inl h0)
  rw [show ((h'.tables i).table x).key = h.key i x from hp.key i x hi hne]
  exact hx

theorem Persists.find_none (hp : Persists h h') (hi : i < h.len) (hf : h.find kt k i = none) :
    h'.find kt k i = none := by
  unfold Ht.find Hti.lookup at hf ⊢
  rw [hp.probes_eq hi]
  rw [List.find?_eq_none] at hf ⊢
  exact fun x hx => hp.not_stopsAt hi (hf x hx)

theorem Persists.find_some (hp : Persists h h') (hi : i < h.len) (hf : h.find kt k i = some e)
    (hne : h.key i e ≠ doesNotExist) : h'.find kt k i = some e := by
  obtain ⟨hstop, done, rest, hsplit, hdone⟩ := List.find?_eq_some_iff_append.mp hf
  refine Hti.lookup_of_split ((hp.probes_eq hi _).trans hsplit) (fun x hx => ?_) ?_
  · exact hp.not_stopsAt hi (Bool.eq_false_iff.mp ((Bool.not_eq_true' _).mp (hdone x hx)))
  · rw [Hti.stopsAt_iff, show ((h'.tables i).table e).key = h.key i e from hp.key i e hi hne]
    exact Hti.stopsAt_iff.mp hstop

theorem Persists.key_ne (hp : Persists h h') (hi : i < h.len) (hne : h.key i e ≠ doesNotExist) :
    h'.key i e ≠ doesNotExist := by
  rw [hp.key i e hi hne]
  exact hne

theorem Persists.isDead (hp : Persists h h') (hi : i < h.len) (hd : Dead (h.val i e)) :
    Dead (h'.val i e) := by
  rw [hp.dead i e hi hd]
  exact hd

/-- What is in a column when it is neither empty nor full. -/
theorem cell_cases (kt : KeyType) (h : Ht) (k i : ℕ) : h.cell kt k i = .full ∧ h.find kt k i = none
    ∨ h.cell kt k i = .vacant
    ∨ ∃ e, h.find kt k i = some e ∧ h.key i e ≠ doesNotExist
      ∧ h.cell kt k i = cellOf (h.val i e) := by
  rcases hf : h.find kt k i with _ | e
  · exact Or.inl ⟨Ht.cell_of_none hf, rfl⟩
  · by_cases hk : h.key i e = doesNotExist
    · exact Or.inr (Or.inl (Ht.cell_of_empty hf hk))
    · exact Or.inr (Or.inr ⟨e, rfl, hk, Ht.cell_of_key hf hk⟩)

/-- A cell that is passed for a dead entry, or for want of room, stays so. -/
theorem Persists.cell_passed (hp : Persists h h') (hi : i < h.len)
    (hpass : (h.cell kt k i).Passed) : h'.cell kt k i = h.cell kt k i := by
  rcases cell_cases kt h k i with ⟨hc, hf⟩ | hc | ⟨e, hf, hk, hc⟩
  · rw [hc]
    exact Ht.cell_of_none (hp.find_none hi hf)
  · rw [hc] at hpass
    exact hpass.elim
  · rw [hc] at hpass
    have hd := cellOf_passed_iff.mp hpass
    rw [Ht.cell_of_key (hp.find_some hi hf hk) (hp.key_ne hi hk), hp.dead i e hi hd, hc]

theorem Persists.passed (hp : Persists h h') (hi : i < h.len) (hpass : (h.cell kt k i).Passed) :
    (h'.cell kt k i).Passed := by
  rw [hp.cell_passed hi hpass]
  exact hpass

end Persists

end Hashtable
