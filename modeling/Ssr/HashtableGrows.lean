/-
# What the steps of the hash table leave alone

Whatever a thread does, the other threads go on to know what they knew about the tables: an
entry keeps its key, a dead one stays dead, and a value that has moved has moved.

* `Grows` — this;
* `Grows.find_some`, `Grows.find_none`, `Grows.skipped`, `Grows.passed` — what follows for
  lookups and for the columns of the keys;
* `Still` — no value that is being copied has come anywhere;
* `grows_install`, `grows_shut`, `grows_arrive`, `grows_finish`, `grows_write`,
  `grows_append`, `grows_retire` — one lemma per kind of store.
-/
import Ssr.HashtablePersists

open Map Migration

namespace Hashtable

/-- What every step keeps, or moves on. -/
structure Grows (kt : KeyType) (h h' : Ht) : Prop where
  len : h.len ≤ h'.len
  hti : h.hti ≤ h'.hti
  scale : ∀ i, i < h.len → (h'.tables i).scale = (h.tables i).scale
  probe : ∀ i, i < h.len → (h'.tables i).probe = (h.tables i).probe
  key : ∀ i e, i < h.len → h.key i e ≠ doesNotExist → h'.key i e = h.key i e
  dead : ∀ i e, i < h.len → Dead (h.val i e) → h'.val i e = h.val i e
  val_ne : ∀ i e, i < h.len → h.val i e ≠ doesNotExist → h'.val i e ≠ doesNotExist
  tagged : ∀ i e, i < h.len → IsTagged (h.val i e) → h'.val i e = h.val i e
    ∨ (h'.val i e = copiedValue ∧ Moved (h'.cell kt (kt.keyOf (h.key i e))) (i + 1) h'.len)
  moved : ∀ k i, Moved (h.cell kt k) i h.len → Moved (h'.cell kt k) i h'.len

/-- No value that is being copied has come to another table, if it had not before. -/
def Still (kt : KeyType) (h h' : Ht) (i e : ℕ) : Prop :=
  ∀ u, i < h.len → Legal u → h.val i e = tagValue u →
    Moved (h'.cell kt (kt.keyOf (h.key i e))) (i + 1) h'.len →
    Moved (h.cell kt (kt.keyOf (h.key i e))) (i + 1) h.len

/-- The entries that a lookup has passed: they are taken by other keys. -/
def Finding (kt : KeyType) (h : Ht) (k j : ℕ) (rest : List ℕ) : Prop :=
  ∃ done, (h.tables j).probes (kt.hash k) = done ++ rest
    ∧ ∀ p ∈ done, ¬ (h.tables j).stopsAt kt k (kt.hash k) p = true

section Grows

variable {kt : KeyType} {h h' : Ht} {k i j e : ℕ}

/-- What grows persists. -/
theorem Grows.persists (hg : Grows kt h h') : Persists h h' :=
  ⟨hg.len, hg.scale, hg.probe, hg.key, hg.dead⟩

/-- A search goes on in the same way. -/
theorem Grows.finding (hg : Grows kt h h') (hj : j < h.len) {rest : List ℕ}
    (hf : Finding kt h k j rest) : Finding kt h' k j rest := by
  obtain ⟨done, hp, hdone⟩ := hf
  exact ⟨done, (hg.persists.probes_eq hj _).trans hp, fun p hpd => hg.persists.not_stopsAt hj (hdone p hpd)⟩

/-- A search begins. -/
theorem Finding.start (kt : KeyType) (h : Ht) (k j : ℕ) :
    Finding kt h k j ((h.tables j).probes (kt.hash k)) := ⟨[], rfl, nofun⟩

/-- It stops. -/
theorem Finding.find {rest : List ℕ} (hf : Finding kt h k j (e :: rest))
    (hstop : (h.tables j).stopsAt kt k (kt.hash k) e = true) : h.find kt k j = some e := by
  obtain ⟨done, hp, hdone⟩ := hf
  exact Hti.lookup_of_split hp hdone hstop

/-- It comes to its end. -/
theorem Finding.none (hf : Finding kt h k j []) : h.find kt k j = none := by
  obtain ⟨done, hp, hdone⟩ := hf
  rw [List.append_nil] at hp
  unfold Ht.find Hti.lookup
  rw [hp, List.find?_eq_none]
  exact hdone

/-- It goes on to the next entry. -/
theorem Finding.next {rest : List ℕ} (hf : Finding kt h k j (e :: rest))
    (hstop : ¬ (h.tables j).stopsAt kt k (kt.hash k) e = true) : Finding kt h k j rest := by
  obtain ⟨done, hp, hdone⟩ := hf
  refine ⟨done ++ [e], by rw [hp, List.append_assoc]; rfl, fun p hpd => ?_⟩
  rcases List.mem_append.mp hpd with hpd | hpd
  · exact hdone p hpd
  · rw [List.mem_singleton.mp hpd]
    exact hstop

/-- A key that has no room gets none. -/
theorem Grows.find_none (hg : Grows kt h h') (hi : i < h.len) (hf : h.find kt k i = none) :
    h'.find kt k i = none :=
  hg.persists.find_none hi hf

/-- A key that is found is found again. -/
theorem Grows.find_some (hg : Grows kt h h') (hi : i < h.len) (hf : h.find kt k i = some e)
    (hne : h.key i e ≠ doesNotExist) : h'.find kt k i = some e :=
  hg.persists.find_some hi hf hne

/-- An entry that has a key keeps it. -/
theorem Grows.key_ne (hg : Grows kt h h') (hi : i < h.len) (hne : h.key i e ≠ doesNotExist) :
    h'.key i e ≠ doesNotExist :=
  hg.persists.key_ne hi hne

/-- An entry that is tagged stays so. -/
theorem Grows.isTagged (hg : Grows kt h h') (hi : i < h.len) (ht : IsTagged (h.val i e)) :
    IsTagged (h'.val i e) := by
  rcases hg.tagged i e hi ht with heq | ⟨heq, -⟩
  · rw [heq]
    exact ht
  · rw [heq]
    exact isTagged_tagValue _

/-- An entry that is dead stays so. -/
theorem Grows.isDead (hg : Grows kt h h') (hi : i < h.len) (hd : Dead (h.val i e)) :
    Dead (h'.val i e) :=
  hg.persists.isDead hi hd

/-- So does a table. -/
theorem Grows.allDead (hg : Grows kt h h') (hi : i < h.len)
    (hd : ∀ e, e < 2 ^ (h.tables i).scale → Dead (h.val i e)) :
    ∀ e, e < 2 ^ (h'.tables i).scale → Dead (h'.val i e) := by
  intro e he
  rw [hg.scale i hi] at he
  exact hg.isDead hi (hd e he)

/-- A cell that is passed stays as it is. -/
theorem Grows.cell_passed (hg : Grows kt h h') (hi : i < h.len) (hp : (h.cell kt k i).Passed) :
    h'.cell kt k i = h.cell kt k i :=
  hg.persists.cell_passed hi hp

/-- It is passed again. -/
theorem Grows.passed (hg : Grows kt h h') (hi : i < h.len) (hp : (h.cell kt k i).Passed) :
    (h'.cell kt k i).Passed :=
  hg.persists.passed hi hp

/-- A cell that is skipped is skipped again. -/
theorem Grows.skipped (hg : Grows kt h h') (hi : i < h.len) (hs : (h.cell kt k i).Skipped) :
    (h'.cell kt k i).Skipped := by
  rw [hg.cell_passed hi hs.passed]
  exact hs

/-- Nothing has changed. -/
theorem Grows.refl (kt : KeyType) (h : Ht) : Grows kt h h :=
  ⟨le_rfl, le_rfl, fun _ _ => rfl, fun _ _ => rfl, fun _ _ _ _ => rfl, fun _ _ _ _ => rfl,
    fun _ _ _ => id, fun _ _ _ _ => Or.inl rfl, fun _ _ => id⟩

end Grows

/-! ## The stores -/

section Stores

variable {kt : KeyType} {h h' : Ht} {b i j e k u v w : ℕ}

/-- Only counters differ. -/
theorem Grows.sameEntries (hs : SameEntries h h') (hhti : h.hti ≤ h'.hti) : Grows kt h h' := by
  have hcell : ∀ k, h'.cell kt k = h.cell kt k := fun k => funext fun _ => hs.cell_eq
  refine ⟨hs.len.ge, hhti, fun i _ => hs.scale i, fun i _ => hs.probe i, fun _ _ _ _ => hs.key_eq,
    fun _ _ _ _ => hs.val_eq, fun i e _ hne => ?_, fun _ _ _ _ => Or.inl hs.val_eq,
    fun k i hm => ?_⟩
  · rw [hs.val_eq]
    exact hne
  · rw [hcell, hs.len]
    exact hm

/-- Counters are no entries. -/
theorem Still.sameEntries (hs : SameEntries h h') (i e : ℕ) : Still kt h h' i e := by
  intro u _ _ _ hm
  rw [show h'.cell kt (kt.keyOf (h.key i e)) = h.cell kt (kt.keyOf (h.key i e)) from
    funext fun _ => hs.cell_eq, hs.len] at hm
  exact hm

/-- A store into a value that is not lost. -/
theorem Grows.setVal (hkt : kt.Lawful) (hi : Inv kt h b) (hlt : i < h.len)
    (hdead : ¬ Dead (h.val i e)) (hv : v ≠ doesNotExist)
    (htag : IsTagged (h.val i e) → v = copiedValue)
    (hval : (cellOf (h.val i e)).Valued → (cellOf v).Valued
      ∨ v = copiedValue ∧ Moved (h.cell kt (kt.keyOf (h.key i e))) (i + 1) h.len) :
    Grows kt h (h.setVal i e v) := by
  have hmoved : ∀ k m, Moved (h.cell kt k) m h.len →
      Moved ((h.setVal i e v).cell kt k) m h.len := by
    intro k m hm
    by_cases hfk : h.find kt k i = some e ∧ h.key i e ≠ doesNotExist
    · obtain ⟨hf, hne⟩ := hfk
      have hc := Ht.cell_of_key hf hne
      have hc' : (h.setVal i e v).cell kt k i = cellOf v := Ht.cell_setVal_self v hf hne
      have hsame : SameBut i (h.cell kt k) ((h.setVal i e v).cell kt k) := Ht.cell_setVal_sameBut v
      refine hm.mono le_rfl (fun r _ hs => ?_) fun r _ hvr => ?_
      · by_cases hr : r = i
        · rw [hr, hc] at hs
          exact absurd (Or.inl (cellOf_skipped_iff.mp hs)) hdead
        · rw [hsame r hr]
          exact hs
      · by_cases hr : r = i
        · subst hr
          rw [hc] at hvr
          rcases hval hvr with hvv | ⟨rfl, hmv⟩
          · rw [hc']
            exact Or.inl hvv
          · refine Or.inr ⟨by rw [hc', cellOf_copied]; trivial, ?_⟩
            have hk : kt.Same (kt.keyOf (h.key r e)) k := (hi.find_iff hkt hlt hne).mp hf
            rw [Ht.column_same hkt hk] at hmv
            exact hmv.congr fun m hm _ => hsame m (by omega)
        · rw [hsame r hr]
          exact Or.inl hvr
    · have hother : h.find kt k i = some e → h.key i e = doesNotExist :=
        fun hf => not_not.mp fun hne => hfk ⟨hf, hne⟩
      rw [Ht.cell_setVal_other v hother]
      exact hm
  have hstay : ∀ (P : ℕ → Prop) (j f : ℕ), (j = i → f = e → P v) →
      (¬ (j = i ∧ f = e) → P (h.val j f)) → P ((h.setVal i e v).val j f) := by
    intro P j f hPv hP
    by_cases heq : j = i ∧ f = e
    · obtain ⟨rfl, rfl⟩ := heq
      rw [Ht.setVal_val_self]
      exact hPv rfl rfl
    · rw [Ht.setVal_val_of_ne v heq]
      exact hP heq
  refine ⟨le_rfl, le_rfl, fun j _ => Ht.setVal_scale v, fun j _ => ?_, fun j f _ _ => Ht.setVal_key v,
    fun j f _ hd => ?_, fun j f _ hne => ?_, fun j f _ ht => ?_, hmoved⟩
  · unfold Ht.setVal
    by_cases hj : j = i
    · rw [hj, Ht.setTable_self]
      rfl
    · rw [Ht.setTable_of_ne _ hj]
  · refine hstay (· = h.val j f) j f ?_ fun _ => rfl
    rintro rfl rfl
    exact absurd hd hdead
  · exact hstay (· ≠ doesNotExist) j f (fun _ _ => hv) fun _ => hne
  · by_cases heq : j = i ∧ f = e
    · obtain ⟨rfl, rfl⟩ := heq
      have hcopied := htag ht
      refine Or.inr ⟨(Ht.setVal_val_self v).trans hcopied, hmoved _ _ ?_⟩
      have hvalued : (cellOf (h.val j f)).Valued := by
        have htg := cellOf_tagged ht
        cases hc : cellOf (h.val j f) with
        | copied => exact absurd (cellOf_passed_iff.mp (by rw [hc]; trivial)) hdead
        | moving x => trivial
        | buried => trivial
        | _ => rw [hc] at htg; exact htg.elim
      rcases hval hvalued with hvv | ⟨-, hm⟩
      · rw [hcopied, cellOf_copied] at hvv
        exact hvv.elim
      · exact hm
    · exact Or.inl (Ht.setVal_val_of_ne v heq)

/-- What is being copied elsewhere does not come anywhere by a store that brings no value and
uncovers none. -/
theorem Still.setVal {j f : ℕ} (hval : (cellOf v).Valued → (cellOf (h.val i e)).Valued)
    (hskip : v = copiedValue → (cellOf (h.val i e)).Valued
      ∨ ∀ k m, h.find kt k i = some e → h.key i e ≠ doesNotExist → i < m → m < h.len →
        ¬ (h.cell kt k m).Valued) : Still kt h (h.setVal i e v) j f := by
  intro u _ _ _ hm
  set k := kt.keyOf (h.key j f)
  by_cases hfk : h.find kt k i = some e ∧ h.key i e ≠ doesNotExist
  · obtain ⟨hf, hne⟩ := hfk
    have hc := Ht.cell_of_key hf hne
    have hc' : (h.setVal i e v).cell kt k i = cellOf v := Ht.cell_setVal_self v hf hne
    refine Moved.of_sameBut hm (Ht.cell_setVal_sameBut v) ?_ ?_
    · rw [hc, hc']
      exact hval
    · rw [hc, hc']
      intro hs
      rcases hskip (cellOf_skipped_iff.mp hs) with hv | hnone
      · exact Or.inr (Or.inl hv)
      · exact Or.inr (Or.inr fun m hlt hlen => hnone k m hf hne hlt hlen)
  · have hother : h.find kt k i = some e → h.key i e = doesNotExist :=
      fun hf => not_not.mp fun hne => hfk ⟨hf, hne⟩
    rw [Ht.cell_setVal_other v hother] at hm
    exact hm

/-- What is being copied elsewhere does not come to table `i` by a store into it, if no entry
that is being copied has its key below. -/
theorem Still.setVal_below {j f : ℕ} (hv : ¬ (cellOf v).Skipped)
    (hnone : ∀ u, j < i → Legal u → h.val j f = tagValue u →
      h.find kt (kt.keyOf (h.key j f)) i = some e → h.key i e ≠ doesNotExist →
      ¬ ∀ m, j + 1 ≤ m → m < i → (h.cell kt (kt.keyOf (h.key j f)) m).Skipped) :
    Still kt h (h.setVal i e v) j f := by
  intro u _ hl hval hm
  by_cases hfk : h.find kt (kt.keyOf (h.key j f)) i = some e ∧ h.key i e ≠ doesNotExist
  · obtain ⟨hf, hne⟩ := hfk
    have hsame : SameBut i (h.cell kt (kt.keyOf (h.key j f)))
        ((h.setVal i e v).cell kt (kt.keyOf (h.key j f))) := Ht.cell_setVal_sameBut v
    have hc' : (h.setVal i e v).cell kt (kt.keyOf (h.key j f)) i = cellOf v :=
      Ht.cell_setVal_self v hf hne
    obtain ⟨r, hjr, hr, hvr, hsk⟩ := hm
    by_cases hij : i ≤ j
    · -- the store is behind the entry
      refine ⟨r, hjr, hr, ?_, fun m hm hlt => ?_⟩
      · rw [← hsame r (by omega)]
        exact hvr
      · rw [← hsame m (by omega)]
        exact hsk m hm hlt
    · have hji := not_le.mp hij
      rcases Nat.lt_trichotomy r i with hri | rfl | hri
      · refine ⟨r, hjr, hr, ?_, fun m hm hlt => ?_⟩
        · rw [← hsame r hri.ne]
          exact hvr
        · rw [← hsame m (by omega)]
          exact hsk m hm hlt
      · refine absurd (fun m hm hlt => ?_) (hnone u hji hl hval hf hne)
        rw [← hsame m hlt.ne]
        exact hsk m hm hlt
      · have hski := hsk i hji hri
        rw [hc'] at hski
        exact absurd hski hv
  · have hother : h.find kt (kt.keyOf (h.key j f)) i = some e → h.key i e = doesNotExist :=
      fun hf => not_not.mp fun hne => hfk ⟨hf, hne⟩
    rw [Ht.cell_setVal_other v hother] at hm
    exact hm

/-- An entry that can take a value is shut. -/
theorem grows_shut (hkt : kt.Lawful) (hi : Inv kt h b) (hbi : b ≤ i) (hlt : i < h.len)
    (hv : (h.val i e = doesNotExist ∧ v = copiedValue)
      ∨ (h.val i e = tombstone ∧ v = tagValue tombstone)
      ∨ (Legal (h.val i e) ∧ v = tagValue (h.val i e))) :
    Grows kt h (h.setVal i e v) ∧ ∀ j f, Still kt h (h.setVal i e v) j f := by
  have hnt : ¬ IsTagged (h.val i e) := by
    rcases hv with ⟨h0, -⟩ | ⟨h0, -⟩ | ⟨hl, -⟩
    · rw [h0]
      decide
    · rw [h0]
      decide
    · exact hl.2.1
  have hne : v ≠ doesNotExist := by
    rcases hv with ⟨-, rfl⟩ | ⟨-, rfl⟩ | ⟨-, rfl⟩
    · decide
    · decide
    · intro h0
      have ht := isTagged_tagValue (h.val i e)
      rw [h0] at ht
      exact absurd ht (by decide)
  refine ⟨Grows.setVal hkt hi hlt (fun hd => hnt hd.isTagged) hne (fun ht => absurd ht hnt) ?_,
    fun j f => Still.setVal ?_ ?_⟩
  · rcases hv with ⟨h0, rfl⟩ | ⟨h0, rfl⟩ | ⟨hl, rfl⟩
    · rw [h0, cellOf_blank]
      exact False.elim
    · rw [cellOf_buried]
      exact fun _ => Or.inl trivial
    · rw [cellOf_moving hl]
      exact fun _ => Or.inl trivial
  · rcases hv with ⟨h0, rfl⟩ | ⟨h0, rfl⟩ | ⟨hl, rfl⟩
    · rw [cellOf_copied]
      exact False.elim
    · rw [h0, cellOf_tomb]
      exact fun _ => trivial
    · rw [cellOf_live hl]
      exact fun _ => trivial
  · intro hcop
    rcases hv with ⟨h0, -⟩ | ⟨h0, rfl⟩ | ⟨hl, rfl⟩
    · refine Or.inr fun k m hf hkey him hm hvalued => ?_
      have hc : h.cell kt k i = .blank := by
        rw [Ht.cell_of_key hf hkey, h0, cellOf_blank]
      have hnot := (hi.column k).uninstalled hbi (i := i) (by
        rw [hc]
        rintro (h | h)
        · cases h
        · exact h) m him hm
      refine hnot ?_
      cases hcm : h.cell kt k m <;> rw [hcm] at hvalued <;> first | exact hvalued.elim | trivial
    · exact absurd hcop (by decide)
    · exact absurd (Or.inl hcop) hl.tagValue_not_dead

/-- A value comes into an entry that is still without one. -/
theorem grows_arrive (hkt : kt.Lawful) (hi : Inv kt h b) (hlt : i < h.len) (hl : Legal u)
    {i₀ e₀ : ℕ} (hsrc : h.val i₀ e₀ = tagValue u) (hlt₀ : i₀ < i)
    (hv : h.val i e = doesNotExist) (hf : h.find kt (kt.keyOf (h.key i₀ e₀)) i = some e)
    (hkey : h.key i e ≠ doesNotExist)
    (hskip : ∀ m, i₀ + 1 ≤ m → m < i → (h.cell kt (kt.keyOf (h.key i₀ e₀)) m).Skipped) :
    Grows kt h (h.setVal i e u)
      ∧ ∀ j f, ¬ (j = i₀ ∧ f = e₀) → Still kt h (h.setVal i e u) j f := by
  have hkey₀ : h.key i₀ e₀ ≠ doesNotExist := hl.tagValue_key hi (hlt₀.trans hlt) hsrc
  have hmoving : ∀ j f u', j < h.len → Legal u' → h.val j f = tagValue u' →
      h.key j f ≠ doesNotExist ∧ h.cell kt (kt.keyOf (h.key j f)) j = .moving u' := by
    intro j f u' hj hl' hval
    have hne := hl'.tagValue_key hi hj hval
    refine ⟨hne, ?_⟩
    rw [Ht.cell_of_key (hi.found j f hj hne) hne, hval]
    exact cellOf_moving hl'
  refine ⟨Grows.setVal hkt hi hlt ?_ hl.1 ?_ ?_, fun j f hjf => Still.setVal_below ?_ ?_⟩
  · rw [hv]
    decide
  · rw [hv]
    exact fun ht => absurd ht (by decide)
  · rw [hv, cellOf_blank]
    exact False.elim
  · rw [cellOf_live hl]
    exact id
  · -- both entries would have the same key, and one would stand in the way of the other
    intro u' hji hl' hval hf' _ hall
    obtain ⟨hne, hc⟩ := hmoving j f u' (hji.trans hlt) hl' hval
    obtain ⟨-, hc₀⟩ := hmoving i₀ e₀ u (hlt₀.trans hlt) hl hsrc
    have hsame : kt.Same (kt.keyOf (h.key j f)) (kt.keyOf (h.key i₀ e₀)) :=
      ((hi.find_iff hkt hlt hkey).mp hf').symm hkt |>.trans hkt ((hi.find_iff hkt hlt hkey).mp hf)
    have hcol := Ht.column_same hkt hsame (s := h)
    rcases Nat.lt_trichotomy j i₀ with hlt' | rfl | hlt'
    · have hs := hall i₀ hlt' hlt₀
      rw [hcol, hc₀] at hs
      exact hs
    · refine hjf ⟨rfl, ?_⟩
      have h₁ := hi.found j f (hji.trans hlt) hne
      have h₂ := hi.found j e₀ (hji.trans hlt) hkey₀
      rw [Ht.find_same hkt hsame, h₂] at h₁
      exact (Option.some.inj h₁).symm
    · have hs := hskip j hlt' hji
      rw [← hcol, hc] at hs
      exact hs

/-- A value that has moved is given away. -/
theorem grows_finish (hkt : kt.Lawful) (hi : Inv kt h b) (hlt : i < h.len) (hl : Legal u)
    (hv : h.val i e = tagValue u)
    (hm : Moved (h.cell kt (kt.keyOf (h.key i e))) (i + 1) h.len) :
    Grows kt h (h.setVal i e copiedValue)
      ∧ ∀ j f, Still kt h (h.setVal i e copiedValue) j f := by
  refine ⟨Grows.setVal hkt hi hlt ?_ (by decide) (fun _ => rfl) fun _ => Or.inr ⟨rfl, hm⟩,
    fun j f => Still.setVal ?_ fun _ => Or.inl ?_⟩
  · rw [hv]
    exact hl.tagValue_not_dead
  · rw [cellOf_copied]
    exact False.elim
  · rw [hv, cellOf_moving hl]
    trivial

/-- A call stores its value. -/
theorem grows_write (hkt : kt.Lawful) (hi : Inv kt h b) (hlt : i < h.len)
    (hkey : h.key i e ≠ doesNotExist) (ht : ¬ IsTagged (h.val i e)) (hv : v = tombstone ∨ Legal v)
    (hpass : ∀ m, b ≤ m → m < i → (h.cell kt (kt.keyOf (h.key i e)) m).Passed) :
    Grows kt h (h.setVal i e v) ∧ ∀ j f, b ≤ j → Still kt h (h.setVal i e v) j f := by
  have hvalued : (cellOf v).Valued ∧ ¬ (cellOf v).Skipped := by
    rcases hv with rfl | hl
    · rw [cellOf_tomb]
      exact ⟨trivial, id⟩
    · rw [cellOf_live hl]
      exact ⟨trivial, id⟩
  have hne : v ≠ doesNotExist := by
    rcases hv with rfl | hl
    · decide
    · exact hl.1
  refine ⟨Grows.setVal hkt hi hlt (fun hd => ht hd.isTagged) hne (fun ht' => absurd ht' ht)
    fun _ => Or.inl hvalued.1, fun j f hbj => Still.setVal_below hvalued.2 ?_⟩
  intro u hji hl hval hf _ _
  have hj := hji.trans hlt
  have hkeyj := hl.tagValue_key hi hj hval
  have hsame := (hi.find_iff hkt hlt hkey).mp hf
  have hp := hpass j hbj hji
  rw [Ht.cell_same hkt hsame, Ht.cell_of_key (hi.found j f hj hkeyj) hkeyj, hval,
    cellOf_moving hl] at hp
  exact hp

/-- A key comes into an empty entry. -/
theorem grows_install (hkt : kt.Lawful) (hi : Inv kt h b) (hlt : i < h.len)
    (he : h.key i e = doesNotExist) (hw : kt.Good w) (hf : h.find kt (kt.keyOf w) i = some e) :
    Grows kt h (h.setKey i e w) ∧ ∀ j f, b ≤ j → Still kt h (h.setKey i e w) j f := by
  obtain ⟨hcell, -⟩ := hi.cell_setKey hkt hlt he hw hf
  have hsame : ∀ k, SameBut i (h.cell kt k) ((h.setKey i e w).cell kt k) := by
    intro k m hm
    unfold Ht.cell
    rw [Ht.find_setKey_of_ne w hm]
    split
    · rfl
    · rw [Ht.setKey_key_of_ne w fun h => hm h.1, Ht.setKey_val]
  have hnot : ∀ k, (h.setKey i e w).cell kt k i = h.cell kt k i
      ∨ (h.cell kt k i = .vacant ∧ ¬ ((h.setKey i e w).cell kt k i).Valued) := by
    intro k
    refine (hcell k).imp id fun ⟨hvac, hc, _⟩ => ⟨hvac, ?_⟩
    rcases hc with hc | hc | hc | hc <;> rw [hc] <;> exact id
  refine ⟨⟨le_rfl, le_rfl, fun j _ => Ht.setKey_scale w, fun j _ => ?_, fun j f _ hne => ?_,
    fun j f _ _ => Ht.setKey_val w, fun j f _ hne => ?_, fun j f _ _ => Or.inl (Ht.setKey_val w),
    fun k m hm => ?_⟩, fun j f hbj u hj hl hval hm => ?_⟩
  · unfold Ht.setKey
    by_cases hj : j = i
    · rw [hj, Ht.setTable_self]
      rfl
    · rw [Ht.setTable_of_ne _ hj]
  · refine Ht.setKey_key_of_ne w ?_
    rintro ⟨rfl, rfl⟩
    exact hne he
  · rw [Ht.setKey_val]
    exact hne
  · refine hm.mono le_rfl (fun r _ hs => ?_) fun r _ hv => Or.inl ?_
    · by_cases hr : r = i
      · subst hr
        rcases hnot k with heq | ⟨hvac, -⟩
        · rw [heq]
          exact hs
        · rw [hvac] at hs
          exact hs.elim
      · rw [hsame k r hr]
        exact hs
    · by_cases hr : r = i
      · subst hr
        rcases hnot k with heq | ⟨hvac, -⟩
        · rw [heq]
          exact hv
        · rw [hvac] at hv
          exact hv.elim
      · rw [hsame k r hr]
        exact hv
  · have hlen : (h.setKey i e w).len = h.len := rfl
    rw [hlen] at hm
    rcases hnot (kt.keyOf (h.key j f)) with heq | ⟨hvac, hnv⟩
    · refine Reaches.congr (fun m _ _ => ?_) hm
      by_cases hmi : m = i
      · rw [hmi]
        exact heq.symm
      · exact (hsame _ m hmi).symm
    · -- the key is in no table behind this one
      by_cases hij : i ≤ j
      · exact Reaches.congr (fun m hjm _ => (hsame _ m (by omega)).symm) hm
      · refine hm.of_sameBut (hsame _) (fun hv => absurd hv hnv) fun _ => Or.inr (Or.inr ?_)
        intro m him hmlt hvalued
        have hins := (hi.column (kt.keyOf (h.key j f))).uninstalled (b := b) (i := i) (by omega) (by
          rw [hvac]
          rintro (h | h)
          · cases h
          · exact h) m him hmlt
        refine hins ?_
        cases hcm : h.cell kt (kt.keyOf (h.key j f)) m <;> rw [hcm] at hvalued <;>
          first | exact hvalued.elim | trivial

/-- A new table is put behind the last one. -/
theorem grows_append (kt : KeyType) (h : Ht) (scale : ℕ) :
    Grows kt h (h.append (htiAlloc scale))
      ∧ ∀ j f, Still kt h (h.append (htiAlloc scale)) j f := by
  have hcell : ∀ k m, m < h.len → (h.append (htiAlloc scale)).cell kt k m = h.cell kt k m :=
    fun k m hm => Ht.append_cell _ hm.ne
  refine ⟨⟨Nat.le_succ _, le_rfl, fun i hi => ?_, fun i hi => ?_, fun i e hi _ => Ht.append_key _ hi.ne,
    fun i e hi _ => Ht.append_val _ hi.ne, fun i e hi hne => ?_,
    fun i e hi _ => Or.inl (Ht.append_val _ hi.ne), fun k i hm => ?_⟩, fun j f u hj _ _ hm => ?_⟩
  · rw [Ht.append_of_ne _ hi.ne]
  · rw [Ht.append_of_ne _ hi.ne]
  · rw [Ht.append_val _ hi.ne]
    exact hne
  · refine hm.mono (Nat.le_succ _) (fun m hm hs => ?_) fun m hm hv => Or.inl ?_
    · rw [hcell k m hm]
      exact hs
    · rw [hcell k m hm]
      exact hv
  · obtain ⟨r, hjr, hr, hv, hsk⟩ := hm
    have hr' : r < h.len + 1 := hr
    have hrl : r < h.len := by
      by_contra hge
      obtain rfl : r = h.len := by omega
      obtain ⟨x, hx⟩ := @Ht.append_alloc_find kt h (kt.keyOf (h.key j f)) scale
      rw [Ht.cell_of_empty hx (Ht.append_alloc_key scale)] at hv
      exact hv
    refine ⟨r, hjr, hrl, ?_, fun m hm hlt => ?_⟩
    · rw [← hcell _ r hrl]
      exact hv
    · rw [← hcell _ m (hlt.trans hrl)]
      exact hsk m hm hlt

/-- Readers start at the next table. -/
theorem grows_retire (kt : KeyType) (h : Ht) :
    Grows kt h { h with hti := h.hti + 1 } ∧ ∀ j f, Still kt h { h with hti := h.hti + 1 } j f := by
  have hent : SameEntries h { h with hti := h.hti + 1 } := ⟨rfl, fun _ => rfl, fun _ => rfl, fun _ => rfl⟩
  exact ⟨Grows.sameEntries hent (Nat.le_succ _), fun j f => Still.sameEntries hent j f⟩

end Stores

end Hashtable
