/-
# The counts of the hash table by many threads

A table counts the entries that have a value, less what the threads have still to add to
the count: a call adds to it after its `SYNC_CAS`, and a copier after it has put the value
into another table.

* `Shared.stored` — the entries of a table that have a value which is in no other table;
* `Pc.late` — what a thread has still to add;
* `Tallied` — what a step does to them;
* `resume_tallied` — one case per place where a thread can stand.
-/
import Ssr.HashtableRuns

open Interleaving Map Migration Hashtable

namespace HashtableSteps

/-! ## What is counted -/

/-- Entry `e` of table `i` has a value, and no copier has put it into another table. -/
def Shared.keeps (s : Shared) (i e : ℕ) : ℕ :=
  if occupied (s.ht.val i e) = true ∧ s.won i e = none then 1 else 0

/-- The entries of table `i` that have a value. -/
def Shared.stored (s : Shared) (i : ℕ) : ℕ :=
  ∑ e ∈ Finset.range (2 ^ (s.ht.tables i).scale), s.keeps i e

/-- The entries that have a value, in the tables from `ht->hti` on. -/
def Shared.total (s : Shared) : ℕ := ∑ i ∈ Finset.Ico s.ht.hti s.ht.len, s.stored i

/-- What the thread has still to add to the count of table `i`. -/
def Pc.late (pc : Pc) (i : ℕ) : ℤ :=
  match pc with
  | .count a j _ => if j = i then (if a.new = doesNotExist then -1 else 1) else 0
  | .copyStore c j true | .copySub c j =>
    (if j = i then 1 else 0) - (if c.i = i then 1 else 0)
  | .copyAdd _ j => if j = i then 1 else 0
  | _ => 0

/-- By how much the step of a thread changes the number of keys. -/
def Pc.gain (s : Shared) : Pc → ℤ
  | .swap a i e v => if s.ht.val i e = v then (occupied a.word).toNat - (occupied v).toNat else 0
  | _ => 0

/-- The value is being copied. -/
def Moving (v : ℕ) : Prop := IsTagged v ∧ ¬ Dead v

/-- The thread copies entry `e` of table `i`. -/
def Pc.Copies (pc : Pc) (i e : ℕ) : Prop := ∃ c, pc.copy = some c ∧ c.i = i ∧ c.e = e

/-- **What a step does to the counts.** -/
structure Tallied (s : Shared) (pc : Pc) (r : Shared × Pc) : Prop where
  balance : ∀ i, i < s.ht.len →
    ((r.1.ht.tables i).count + r.2.late i - r.1.stored i : ℤ)
      ≡ (s.ht.tables i).count + pc.late i - s.stored i [ZMOD 2 ^ 64]
  fresh : ∀ i, s.ht.len ≤ i → i < r.1.ht.len → (r.1.ht.tables i).count = 0 ∧ r.1.stored i = 0
  placed : (∀ i, s.ht.len ≤ i → pc.late i = 0) → ∀ i, s.ht.len ≤ i → r.2.late i = 0
  bounded : (∀ i, (s.ht.tables i).count < 2 ^ 64) → ∀ i, (r.1.ht.tables i).count < 2 ^ 64
  total : (r.1.total : ℤ) = s.total + pc.gain s
  moving : ∀ i e, Moving (r.1.ht.val i e) →
    r.2.Copies i e ∨ (Moving (s.ht.val i e) ∧ ¬ pc.Copies i e)

variable {kt : KeyType} {t : ℕ} {s s' : Shared} {pc pc' : Pc} {i j e f u v w : ℕ} {c : Copy}

section Stored

/-- Two states that differ in what entry `e` of table `i` keeps. -/
structure SameBut (s s' : Shared) (i e : ℕ) : Prop where
  hti : s'.ht.hti = s.ht.hti
  len : s'.ht.len = s.ht.len
  scale : ∀ j, (s'.ht.tables j).scale = (s.ht.tables j).scale
  keeps : ∀ j f, ¬ (j = i ∧ f = e) → s'.keeps j f = s.keeps j f

/-- The other tables hold what they held. -/
theorem SameBut.stored_of_ne (h : SameBut s s' i e) (hj : j ≠ i) : s'.stored j = s.stored j := by
  unfold Shared.stored
  rw [h.scale]
  exact Finset.sum_congr rfl fun f _ => h.keeps j f fun hjf => hj hjf.1

/-- The table of the entry holds it in addition. -/
theorem SameBut.stored (h : SameBut s s' i e) (he : e < 2 ^ (s.ht.tables i).scale) :
    s'.stored i + s.keeps i e = s.stored i + s'.keeps i e := by
  unfold Shared.stored
  rw [h.scale]
  exact sum_change (s.keeps i) (s'.keeps i) (Finset.mem_range.mpr he) fun f hf =>
    h.keeps i f fun hjf => hf hjf.2

/-- So does the whole chain. -/
theorem SameBut.total (h : SameBut s s' i e) (he : e < 2 ^ (s.ht.tables i).scale)
    (hbi : s.ht.hti ≤ i) (hi : i < s.ht.len) :
    s'.total + s.keeps i e = s.total + s'.keeps i e := by
  have hsum := sum_change s.stored s'.stored (Finset.mem_Ico.mpr ⟨hbi, hi⟩)
    fun j hj => h.stored_of_ne hj
  have hone := h.stored he
  unfold Shared.total
  rw [h.hti, h.len]
  omega

/-- Where the entry keeps what it kept, nothing changes. -/
theorem SameBut.stored_eq (h : SameBut s s' i e) (hk : s'.keeps i e = s.keeps i e) (j : ℕ) :
    s'.stored j = s.stored j := by
  unfold Shared.stored
  rw [h.scale]
  refine Finset.sum_congr rfl fun f _ => ?_
  by_cases hjf : j = i ∧ f = e
  · rw [hjf.1, hjf.2, hk]
  · exact h.keeps j f hjf

/-- An entry that holds what it held. -/
theorem SameBut.total_eq (h : SameBut s s' i e) (hk : s'.keeps i e = s.keeps i e) :
    s'.total = s.total := by
  unfold Shared.total
  rw [h.hti, h.len]
  exact Finset.sum_congr rfl fun j _ => h.stored_eq hk j

/-- A store of a value. -/
theorem SameBut.setVal (s : Shared) (i e v : ℕ) : SameBut s (s.setVal i e v) i e := by
  refine ⟨rfl, rfl, fun j => Ht.setVal_scale .., fun j f hjf => ?_⟩
  unfold Shared.keeps
  rw [show (s.setVal i e v).ht.val j f = s.ht.val j f from Ht.setVal_val_of_ne v hjf]
  rfl

/-- A note on who copied it. -/
theorem SameBut.setWon (s : Shared) (i e : ℕ) (r : Option ℕ) : SameBut s (s.setWon i e r) i e := by
  refine ⟨rfl, rfl, fun j => rfl, fun j f hjf => ?_⟩
  have hwon : (s.setWon i e r).won j f = s.won j f := by
    show Function.update s.won i (Function.update (s.won i) e r) j f = s.won j f
    by_cases hj : j = i
    · subst hj
      rw [Function.update_self, Function.update_of_ne fun hf => hjf ⟨rfl, hf⟩]
    · rw [Function.update_of_ne hj]
  unfold Shared.keeps
  rw [hwon]
  rfl

end Stored

/-! ## What a step does -/

section Tally

/-- Two states with the same values and counts. -/
structure SameStore (s s' : Shared) : Prop where
  hti : s'.ht.hti = s.ht.hti
  len : s'.ht.len = s.ht.len
  scale : ∀ i, (s'.ht.tables i).scale = (s.ht.tables i).scale
  val : ∀ i e, s'.ht.val i e = s.ht.val i e
  count : ∀ i, (s'.ht.tables i).count = (s.ht.tables i).count
  won : s'.won = s.won

/-- No store. -/
theorem SameStore.refl (s : Shared) : SameStore s s :=
  ⟨rfl, rfl, fun _ => rfl, fun _ _ => rfl, fun _ => rfl, rfl⟩

/-- The same stores hold the same. -/
theorem SameStore.keeps (h : SameStore s s') (i e : ℕ) : s'.keeps i e = s.keeps i e := by
  unfold Shared.keeps
  rw [h.val, h.won]

/-- A store into a table that leaves its values and its count. -/
theorem SameStore.setTable {h : Hti} (hht : s'.ht = s.ht.setTable i h) (hwon : s'.won = s.won)
    (hv : ∀ e, (h.table e).val = s.ht.val i e) (hs : h.scale = (s.ht.tables i).scale)
    (hc : h.count = (s.ht.tables i).count) : SameStore s s' := by
  have hcase : ∀ j, (j = i ∧ s'.ht.tables j = h) ∨ s'.ht.tables j = s.ht.tables j := fun j => by
    by_cases hj : j = i
    · refine Or.inl ⟨hj, ?_⟩
      rw [hht, hj]
      exact Ht.setTable_self h
    · refine Or.inr ?_
      rw [hht]
      exact Ht.setTable_of_ne h hj
  refine ⟨by rw [hht]; rfl, by rw [hht]; rfl, fun j => ?_, fun j e => ?_, fun j => ?_, hwon⟩
  all_goals rcases hcase j with ⟨rfl, hj⟩ | hj
  · rw [hj, hs]
  · rw [hj]
  · unfold Ht.val at hv ⊢
    rw [hj, hv]
  · unfold Ht.val
    rw [hj]
  · rw [hj, hc]
  · rw [hj]

/-- The copy that a thread has in hand stays in hand until its entry is dead. -/
def Keeps (s' : Shared) (pc pc' : Pc) : Prop :=
  ∀ c, pc.copy = some c →
    (∃ c', pc'.copy = some c' ∧ c'.i = c.i ∧ c'.e = c.e) ∨ ¬ Moving (s'.ht.val c.i c.e)

/-- A copy that goes on is still that copy. -/
theorem Keeps.copies (h : Keeps s' pc pc') (hm : Moving (s'.ht.val i e)) (hc : pc.Copies i e) :
    pc'.Copies i e := by
  obtain ⟨c, hcopy, rfl, rfl⟩ := hc
  exact (h c hcopy).resolve_right fun hn => hn hm

/-- A step that stores no value. -/
theorem Tallied.same (h : SameStore s s') (hl : pc'.late = pc.late) (hg : pc.gain s = 0)
    (hk : Keeps s' pc pc') : Tallied s pc (s', pc') := by
  have hbut : SameBut s s' 0 0 := ⟨h.hti, h.len, h.scale, fun j f _ => h.keeps j f⟩
  refine ⟨fun i _ => ?_, fun i hi hi' => ?_, fun hp i hi => ?_, fun hb i => ?_, ?_,
    fun i e hm => ?_⟩
  · rw [h.count, hbut.stored_eq (h.keeps 0 0), hl]
  · rw [h.len] at hi'
    omega
  · rw [hl]
    exact hp i hi
  · rw [h.count]
    exact hb i
  · rw [hbut.total_eq (h.keeps 0 0), hg, add_zero]
  · by_cases hc : pc.Copies i e
    · exact Or.inl (hk.copies hm hc)
    · rw [h.val] at hm
      exact Or.inr ⟨hm, hc⟩

/-- A step that changes nothing. -/
theorem Tallied.stay (hl : pc'.late = pc.late) (hg : pc.gain s = 0) (hk : Keeps s pc pc') :
    Tallied s pc (s, pc') :=
  Tallied.same (SameStore.refl s) hl hg hk

/-- An entry without a value holds nothing. -/
theorem keeps_eq_zero (h : occupied (s.ht.val i e) = false) : s.keeps i e = 0 := by
  unfold Shared.keeps
  rw [h]
  exact if_neg fun h' => Bool.false_ne_true h'.1

/-- An entry with a value that no one has copied holds one. -/
theorem keeps_eq_one (h : occupied (s.ht.val i e) = true) (hw : s.won i e = none) :
    s.keeps i e = 1 := if_pos ⟨h, hw⟩

/-- A store into an entry that keeps what it kept. -/
theorem Tallied.store (hht : s'.ht = s.ht.setVal i e v) (hwon : s'.won = s.won)
    (hkeeps : s'.keeps i e = s.keeps i e) (hl : pc'.late = pc.late) (hg : pc.gain s = 0)
    (hm : Moving v → Moving (s.ht.val i e) ∨ pc'.Copies i e) (hk : Keeps s' pc pc') :
    Tallied s pc (s', pc') := by
  have hbut : SameBut s s' i e := by
    have h := SameBut.setVal s i e v
    refine ⟨?_, ?_, fun j => ?_, fun j f hjf => ?_⟩
    · rw [hht]
      exact h.hti
    · rw [hht]
      exact h.len
    · rw [hht]
      exact h.scale j
    · rw [← h.keeps j f hjf]
      unfold Shared.keeps
      rw [hht, hwon]
      rfl
  refine ⟨fun j _ => ?_, fun j hj hj' => ?_, fun hp j hj => ?_, fun hb j => ?_, ?_,
    fun j f hmf => ?_⟩
  · rw [hbut.stored_eq hkeeps, hl, hht]
    rw [(setVal_counters s.ht i e v j).1]
  · rw [hbut.len] at hj'
    omega
  · rw [hl]
    exact hp j hj
  · rw [hht]
    exact (setVal_counters s.ht i e v j).1.trans_lt (hb j)
  · rw [hbut.total_eq hkeeps, hg, add_zero]
  · by_cases hc : pc.Copies j f
    · exact Or.inl (hk.copies hmf hc)
    · by_cases hjf : j = i ∧ f = e
      · obtain ⟨rfl, rfl⟩ := hjf
        rw [hht, Ht.setVal_val_self] at hmf
        exact (hm hmf).symm.imp_right fun h => ⟨h, hc⟩
      · rw [hht, Ht.setVal_val_of_ne v hjf] at hmf
        exact Or.inr ⟨hmf, hc⟩

/-- A step that adds to the count of a table what the thread had to add. -/
theorem Tallied.addCount {n : ℕ} {d : ℤ} (hht : s'.ht = s.ht.addCount i n)
    (hkeeps : ∀ j f, s'.keeps j f = s.keeps j f)
    (hl : ∀ j, pc.late j = pc'.late j + if i = j then d else 0) (hn : (n : ℤ) ≡ d [ZMOD 2 ^ 64])
    (hp : (∀ j, s.ht.len ≤ j → pc.late j = 0) → ∀ j, s.ht.len ≤ j → pc'.late j = 0)
    (hg : pc.gain s = 0) (hk : Keeps s' pc pc') : Tallied s pc (s', pc') := by
  have hent : SameEntries s.ht s'.ht := by
    rw [hht]
    exact addCount_entries s.ht i n
  have hhti : s'.ht.hti = s.ht.hti := by
    rw [hht]
    rfl
  have hbut : SameBut s s' 0 0 := ⟨hhti, hent.len, hent.scale, fun j f _ => hkeeps j f⟩
  have hcount : (s'.ht.tables i).count = ((s.ht.tables i).count + n) % 2 ^ 64 := by
    rw [hht]
    unfold Ht.addCount
    rw [Ht.setTable_self]
  have hother : ∀ j, j ≠ i → (s'.ht.tables j).count = (s.ht.tables j).count := fun j hj => by
    rw [hht]
    unfold Ht.addCount
    rw [Ht.setTable_of_ne _ hj]
  refine ⟨fun j _ => ?_, fun j hj hj' => ?_, hp, fun hb j => ?_,
    ?_, fun j f hm => ?_⟩
  · rw [hbut.stored_eq (hkeeps 0 0), hl]
    by_cases hj : j = i
    · subst hj
      rw [hcount, if_pos rfl]
      unfold Int.ModEq at hn ⊢
      push_cast
      omega
    · rw [hother j hj, if_neg (Ne.symm hj), add_zero]
  · rw [hent.len] at hj'
    omega
  · by_cases hj : j = i
    · rw [hj, hcount]
      exact Nat.mod_lt _ (by decide)
    · rw [hother j hj]
      exact hb j
  · rw [hbut.total_eq (hkeeps 0 0), hg, add_zero]
  · by_cases hc : pc.Copies j f
    · exact Or.inl (hk.copies hm hc)
    · rw [hent.val_eq] at hm
      exact Or.inr ⟨hm, hc⟩

/-- A new table. -/
theorem Tallied.append (scale : ℕ) (hl : pc'.late = pc.late) (hg : pc.gain s = 0)
    (hb : s.ht.hti ≤ s.ht.len) (hk : Keeps { s with ht := s.ht.append (htiAlloc scale) } pc pc') :
    Tallied s pc ({ s with ht := s.ht.append (htiAlloc scale) }, pc') := by
  obtain ⟨s', hs'⟩ : ∃ s' : Shared, s' = { s with ht := s.ht.append (htiAlloc scale) } := ⟨_, rfl⟩
  have hlen : s'.ht.len = s.ht.len + 1 := by
    rw [hs']
    rfl
  have hval : ∀ f, s'.ht.val s.ht.len f = doesNotExist := fun f => by
    rw [hs']
    exact Ht.append_alloc_val scale
  have hvals : ∀ j f, j ≠ s.ht.len → s'.ht.val j f = s.ht.val j f := fun j f hj => by
    rw [hs']
    exact Ht.append_val _ hj
  have hnew : s'.stored s.ht.len = 0 :=
    Finset.sum_eq_zero fun f _ => keeps_eq_zero (by rw [hval]; rfl)
  have hstored : ∀ j, j ≠ s.ht.len → s'.stored j = s.stored j := fun j hj => by
    have hscale : (s'.ht.tables j).scale = (s.ht.tables j).scale := by
      rw [hs']
      exact congrArg Hti.scale (Ht.append_of_ne _ hj)
    unfold Shared.stored
    rw [hscale]
    refine Finset.sum_congr rfl fun f _ => ?_
    unfold Shared.keeps
    rw [hvals j f hj, hs']
  have hcount : ∀ j, j ≠ s.ht.len → (s'.ht.tables j).count = (s.ht.tables j).count := fun j hj => by
    rw [hs']
    exact congrArg Hti.count (Ht.append_of_ne _ hj)
  have hzero : (s'.ht.tables s.ht.len).count = 0 := by
    rw [hs']
    exact congrArg Hti.count (Ht.append_self _)
  rw [← hs'] at hk ⊢
  refine ⟨fun j hj => ?_, fun j hj hj' => ?_, fun hp j hj => ?_, fun hbd j => ?_, ?_,
    fun j f hm => ?_⟩
  · rw [hcount j hj.ne, hstored j hj.ne, hl]
  · have hj'' : j < s'.ht.len := hj'
    rw [hlen] at hj''
    rw [show j = s.ht.len by omega]
    exact ⟨hzero, hnew⟩
  · rw [hl]
    exact hp j hj
  · by_cases hj : j = s.ht.len
    · rw [hj]
      exact hzero.trans_lt (by decide)
    · rw [hcount j hj]
      exact hbd j
  · have htotal : s'.total = s.total := by
      unfold Shared.total
      rw [hlen, show s'.ht.hti = s.ht.hti by rw [hs']; rfl, Finset.sum_Ico_succ_top hb, hnew,
        add_zero]
      exact Finset.sum_congr rfl fun j hj => hstored j (Finset.mem_Ico.mp hj).2.ne
    rw [htotal, hg, add_zero]
  · by_cases hc : pc.Copies j f
    · exact Or.inl (hk.copies hm hc)
    · by_cases hj : j = s.ht.len
      · rw [hj, hval] at hm
        exact absurd hm.1 (by decide)
      · rw [hvals j f hj] at hm
        exact Or.inr ⟨hm, hc⟩

/-- `ht->hti` passes a table that is dead. -/
theorem Tallied.retire (hd : AllDead s.ht s.ht.hti) (hlt : s.ht.hti < s.ht.len)
    (hl : pc'.late = pc.late) (hg : pc.gain s = 0)
    (hk : Keeps { s with ht := { s.ht with hti := s.ht.hti + 1 } } pc pc') :
    Tallied s pc ({ s with ht := { s.ht with hti := s.ht.hti + 1 } }, pc') := by
  have hzero : s.stored s.ht.hti = 0 := by
    refine Finset.sum_eq_zero fun e he => keeps_eq_zero ?_
    rcases hd e (Finset.mem_range.mp he) with h | h <;> rw [h] <;> rfl
  refine ⟨fun j _ => ?_, fun j hj hj' => ?_, fun hp j hj => ?_, fun hb => hb, ?_, fun j f hm => ?_⟩
  · rw [hl]
    rfl
  · exact absurd hj' (Nat.not_lt.mpr hj)
  · rw [hl]
    exact hp j hj
  · have htotal : ∑ j ∈ Finset.Ico (s.ht.hti + 1) s.ht.len, s.stored j = s.total := by
      unfold Shared.total
      rw [Finset.sum_eq_sum_Ico_succ_bot hlt, hzero, zero_add]
    rw [hg, add_zero]
    exact congrArg Nat.cast htotal
  · by_cases hc : pc.Copies j f
    · exact Or.inl (hk.copies hm hc)
    · exact Or.inr ⟨hm, hc⟩

/-- What the thread has to add after its `SYNC_CAS` on a value. -/
theorem late_swapped {a : Args} (hst : Stored v) (ht : ¬ IsTagged v) (ho : (Op.set a).Ok) (r : ℕ)
    (i j : ℕ) :
    (if Existed v ↔ a.new ≠ doesNotExist then Pc.returned r else .count a i v).late j
      = if i = j then ((occupied a.word).toNat - (occupied v).toNat : ℤ) else 0 := by
  have hword : occupied a.word = decide (a.new ≠ doesNotExist) := (stored_word ho.2).2.1
  have hocc : occupied v = decide (Existed v) := occupied_of_stored hst ht
  rw [hword, hocc]
  by_cases hex : Existed v <;> by_cases hnew : a.new = doesNotExist
  · rw [if_neg fun h => h.mp hex hnew, decide_eq_false (not_not.mpr hnew), decide_eq_true hex]
    show (if i = j then (if a.new = doesNotExist then (-1 : ℤ) else 1) else 0) = _
    rw [if_pos hnew]
    rfl
  · rw [if_pos (iff_of_true hex hnew), decide_eq_true hnew, decide_eq_true hex, sub_self, ite_self]
    rfl
  · rw [if_pos (iff_of_false hex (not_not.mpr hnew)), decide_eq_false (not_not.mpr hnew),
      decide_eq_false hex, sub_self, ite_self]
    rfl
  · rw [if_neg fun h => hex (h.mpr hnew), decide_eq_true hnew, decide_eq_false hex]
    show (if i = j then (if a.new = doesNotExist then (-1 : ℤ) else 1) else 0) = _
    rw [if_neg hnew]
    rfl

/-- The `SYNC_CAS` of `hti_cas` on a value. -/
theorem swap_tallied {a : Args} (hkt : kt.Lawful) (hi : s.Inv kt)
    (hk : Knows kt s.ht (.swap a i e v)) (hv : s.ht.val i e = v) :
    Tallied s (.swap a i e v) (s.setVal i e a.word,
      if Existed v ↔ a.new ≠ doesNotExist then .returned (result v) else .count a i v) := by
  obtain ⟨ho, -, ht, -⟩ : OpAt kt s.ht (.set a) i ∧ EntryOf kt s.ht a.key i e ∧ ¬ IsTagged v
    ∧ ¬ a.Keeps v := id hk
  have hs := swapped hkt hi hk hv
  have hst : Stored v := hv ▸ hi.chain.stored i e ho.lt
  have huntag : ¬ IsTagged a.word := (stored_word ho.ok.2).2.2
  have hbut := SameBut.setVal s i e a.word
  have hwon : s.won i e = none := hi.history.won_eq_none (hv ▸ ht)
  have hkeeps : s.keeps i e = (occupied v).toNat := by
    unfold Shared.keeps
    rw [hv, hwon]
    cases occupied v <;> rfl
  have hkeeps' : (s.setVal i e a.word).keeps i e = (occupied a.word).toNat := by
    unfold Shared.keeps
    rw [show (s.setVal i e a.word).ht.val i e = a.word from Ht.setVal_val_self _,
      show (s.setVal i e a.word).won i e = none from hwon]
    cases occupied a.word <;> rfl
  have hlate := late_swapped hst ht ho.ok (result v) i
  obtain ⟨s', hs'⟩ : ∃ s', s' = s.setVal i e a.word := ⟨_, rfl⟩
  rw [← hs'] at hbut hkeeps' ⊢
  refine ⟨fun j _ => ?_, fun j hj hj' => ?_, fun _ j hj => ?_, fun hb j => ?_, ?_, fun j f hm => ?_⟩
  · have hcount : (s'.ht.tables j).count = (s.ht.tables j).count := by
      rw [hs']
      exact (setVal_counters s.ht i e a.word j).1
    rw [hlate, hcount]
    show ((s.ht.tables j).count + (if i = j then _ else 0) - s'.stored j : ℤ)
      ≡ (s.ht.tables j).count + 0 - s.stored j [ZMOD 2 ^ 64]
    by_cases hj : i = j
    · subst hj
      have hsum := hbut.stored hs.entry
      rw [hkeeps, hkeeps'] at hsum
      rw [if_pos rfl]
      unfold Int.ModEq
      congr 1
      omega
    · rw [if_neg hj, hbut.stored_of_ne (Ne.symm hj)]
  · rw [hs'] at hj'
    exact absurd hj' (Nat.not_lt.mpr hj)
  · rw [hlate]
    exact if_neg (ho.lt.trans_le hj).ne
  · rw [hs']
    exact (setVal_counters s.ht i e a.word j).1.trans_lt (hb j)
  · have hsum := hbut.total hs.entry hs.base ho.lt
    rw [hkeeps, hkeeps'] at hsum
    show (s'.total : ℤ) = s.total + (if s.ht.val i e = v then _ else _)
    rw [if_pos hv]
    omega
  · by_cases hjf : j = i ∧ f = e
    · obtain ⟨rfl, rfl⟩ := hjf
      rw [hs', show (s.setVal j f a.word).ht.val j f = a.word from Ht.setVal_val_self _] at hm
      exact absurd hm.1 huntag
    · rw [hs', show (s.setVal i e a.word).ht.val j f = s.ht.val j f from
        Ht.setVal_val_of_ne _ hjf] at hm
      exact Or.inr ⟨hm, nofun⟩

/-- The copier puts the value into another table. -/
theorem put_tallied (hi : s.Inv kt) (hc : Carries kt s.ht c j u)
    (hf : EntryOf kt s.ht (kt.keyOf (s.ht.key c.i c.e)) j f) (hv : s.ht.val j f = doesNotExist) :
    Tallied s (.copyPut c j u f)
      ((s.setVal j f u).setWon c.i c.e (some t), .copyStore c j true) := by
  have hlt : c.i < s.ht.len := Nat.lt_of_succ_lt hc.next
  have hfe : f < 2 ^ (s.ht.tables j).scale := hi.chain.find_lt hc.lt_len hf.1
  have hnot := hc.not_moved ((Ht.cell_of_key hf.1 hf.2).trans (by rw [hv]; exact cellOf_blank))
  have hsrc : s.ht.val c.i c.e = tagValue u := hc.source.resolve_right fun h => hnot h.2
  have hwon : s.won c.i c.e = none := by
    by_contra hw
    exact hnot (hi.history.winner c.i c.e hw).2.2.2.2
  have hbi : s.ht.hti ≤ c.i :=
    hi.chain.base_le hc.entry (by rw [hsrc]; exact hc.legal.tagValue_not_dead)
  -- the entry of the other table has the value, and then the old one gives it away
  have hput := SameBut.setVal s j f u
  have hgive := SameBut.setWon (s.setVal j f u) c.i c.e (some t)
  have hold : s.keeps j f = 0 := keeps_eq_zero (by rw [hv]; rfl)
  have hnew : (s.setVal j f u).keeps j f = 1 := by
    refine keeps_eq_one ?_ (hi.history.won_eq_none (by rw [hv]; decide))
    rw [show (s.setVal j f u).ht.val j f = u from Ht.setVal_val_self _]
    exact occupied_of_legal hc.legal
  have hhad : (s.setVal j f u).keeps c.i c.e = 1 := by
    rw [hput.keeps c.i c.e fun h => hc.lt.ne h.1]
    refine keeps_eq_one ?_ hwon
    rw [hsrc]
    exact occupied_tagValue hc.legal
  have hgone : ((s.setVal j f u).setWon c.i c.e (some t)).keeps c.i c.e = 0 := by
    refine if_neg fun h => ?_
    have hself : ((s.setVal j f u).setWon c.i c.e (some t)).won c.i c.e = some t := by
      show Function.update s.won c.i (Function.update (s.won c.i) c.e (some t)) c.i c.e = some t
      rw [Function.update_self, Function.update_self]
    rw [hself] at h
    cases h.2
  have hentry : c.e < 2 ^ ((s.setVal j f u).ht.tables c.i).scale := by
    rw [hput.scale]
    exact hc.entry
  refine ⟨fun k _ => ?_, fun k hk hk' => ?_, fun _ k hk => ?_, fun hb k => ?_, ?_, fun k x hm => ?_⟩
  · have hcount : (((s.setVal j f u).setWon c.i c.e (some t)).ht.tables k).count
        = (s.ht.tables k).count := (setVal_counters s.ht j f u k).1
    rw [hcount]
    show _ + ((if j = k then 1 else 0) - (if c.i = k then 1 else 0)) - _
      ≡ (s.ht.tables k).count + 0 - s.stored k [ZMOD 2 ^ 64]
    have hkeep : (((s.setVal j f u).setWon c.i c.e (some t)).stored k : ℤ)
        = s.stored k + ((if j = k then 1 else 0) - (if c.i = k then 1 else 0)) := by
      by_cases hkj : k = j
      · rw [hgive.stored_of_ne (hkj ▸ hc.lt.ne'), if_pos hkj.symm, if_neg (hkj ▸ hc.lt.ne), hkj]
        have := hput.stored hfe
        omega
      · rw [if_neg (Ne.symm hkj)]
        by_cases hki : k = c.i
        · rw [if_pos hki.symm, hki]
          have h₁ := hgive.stored hentry
          rw [hput.stored_of_ne hc.lt.ne] at h₁
          omega
        · rw [if_neg (Ne.symm hki), hgive.stored_of_ne hki, hput.stored_of_ne hkj]
          omega
    rw [hkeep]
    unfold Int.ModEq
    congr 1
    omega
  · exact absurd hk' (Nat.not_lt.mpr hk)
  · show ((if j = k then 1 else 0) - (if c.i = k then 1 else 0) : ℤ) = 0
    rw [if_neg (hc.lt_len.trans_le hk).ne, if_neg (hlt.trans_le hk).ne, sub_self]
  · exact (setVal_counters s.ht j f u k).1.trans_lt (hb k)
  · have h₁ := hput.total hfe (hbi.trans hc.lt.le) hc.lt_len
    have h₂ := hgive.total hentry hbi hlt
    have htotal : ((s.setVal j f u).setWon c.i c.e (some t)).total = s.total := by omega
    rw [htotal]
    exact (add_zero _).symm
  · by_cases hkx : k = j ∧ x = f
    · obtain ⟨rfl, rfl⟩ := hkx
      have hself : ((s.setVal k x u).setWon c.i c.e (some t)).ht.val k x = u := Ht.setVal_val_self _
      rw [hself] at hm
      exact absurd hm.1 hc.legal.2.1
    · have hne : ((s.setVal j f u).setWon c.i c.e (some t)).ht.val k x = s.ht.val k x :=
        Ht.setVal_val_of_ne _ hkx
      rw [hne] at hm
      by_cases hcp : (Pc.copyPut c j u f).Copies k x
      · exact Or.inl hcp
      · exact Or.inr ⟨hm, hcp⟩

end Tally

/-! ## Where a thread goes -/

section Next

/-- A search owes no count. -/
theorem Finder.search_late (f : Finder) (j : ℕ) (rest : List ℕ) :
    (f.search j rest).late = fun _ => 0 := by
  cases rest with
  | cons e rest => rfl
  | nil =>
    cases f with
    | op o => cases o <;> rfl
    | copy c u w => rfl

/-- It belongs to its copy. -/
theorem Finder.search_copy (c : Copy) (u w j : ℕ) (rest : List ℕ) :
    (Finder.search (.copy c u w) j rest).copy = some c := by
  cases rest <;> rfl

/-- A helper that is done owes no count. -/
theorem helped_late (kt : KeyType) (h : Ht) (who : Option Args) (i : ℕ) (finished : Bool) :
    (helped kt h who i finished).late = fun _ => 0 := by
  cases who <;> cases finished
  · rfl
  · rfl
  · exact Finder.search_late _ _ _
  · rfl

/-- Nor does one that goes on. -/
theorem Help.next_late (kt : KeyType) (h : Ht) (g : Help) (i e : ℕ) :
    (g.next kt h i e).late = fun _ => 0 := by
  unfold Help.next
  split
  · split
    · exact helped_late kt h _ _ _
    · rfl
  · rfl

/-- Nor does a copy that is done. -/
theorem Copy.next_late (kt : KeyType) (h : Ht) (c : Copy) (did : Bool) :
    (c.next kt h did).late = fun _ => 0 := by
  unfold Copy.next
  split
  · split <;> rfl
  · exact Help.next_late kt h _ _ _

/-- The copy goes on. -/
theorem Keeps.of_eq (h : pc'.copy = pc.copy) : Keeps s' pc pc' :=
  fun c hc => Or.inl ⟨c, h.trans hc, rfl, rfl⟩

/-- It goes on with the same entry. -/
theorem Keeps.of_copy (h : pc.copy = some c) (h' : pc'.copy = some c) : Keeps s' pc pc' :=
  fun c' hc' => Or.inl ⟨c, h', by rw [h] at hc'; cases hc'; exact ⟨rfl, rfl⟩⟩

/-- It ends when the entry is dead. -/
theorem Keeps.of_dead (h : pc.copy = some c) (hd : Dead (s'.ht.val c.i c.e)) : Keeps s' pc pc' :=
  fun c' hc' => Or.inr fun hm => by
    rw [h] at hc'
    cases hc'
    exact hm.2 hd

/-- There was no copy. -/
theorem Keeps.of_none (h : pc.copy = none) : Keeps s' pc pc' := fun c hc => by
  rw [h] at hc
  cases hc

/-- A step that changes nothing, of a thread that copies nothing. -/
theorem Tallied.read (hl : pc.late = fun _ => 0) (hl' : pc'.late = fun _ => 0)
    (hg : pc.gain s = 0) (hcopy : pc.copy = none) : Tallied s pc (s, pc') :=
  Tallied.stay (hl'.trans hl.symm) hg (Keeps.of_none hcopy)

end Next

/-! ## hti_copy_entry -/

section CopyEntry

/-- A tag does not change whether there is a value. -/
theorem occupied_tag (hst : Stored v) (h0 : v ≠ doesNotExist) :
    occupied (tagValue v) = occupied v := by
  rcases hst with rfl | rfl | hl | hd | ⟨u, hl, rfl⟩
  · exact absurd rfl h0
  · rfl
  · rw [occupied_tagValue hl, occupied_of_legal hl]
  · rw [tagValue_of_isTagged hd.isTagged]
  · rw [tagValue_of_isTagged (isTagged_tagValue u)]

/-- What an entry keeps only depends on whether it has a value. -/
theorem keeps_congr (hht : s'.ht = s.ht.setVal i e v) (hwon : s'.won = s.won)
    (ho : occupied v = occupied (s.ht.val i e)) : s'.keeps i e = s.keeps i e := by
  unfold Shared.keeps
  rw [hht, hwon, Ht.setVal_val_self, ho]

/-- An empty entry is killed. -/
theorem kill_tallied (kt : KeyType) (hv : s.ht.val c.i c.e = doesNotExist) :
    Tallied s (.copyKill c j) ((s.setVal c.i c.e copiedValue).credit t c.i c.e,
      c.next kt (s.ht.setVal c.i c.e copiedValue) true) := by
  have hself : (s.ht.setVal c.i c.e copiedValue).val c.i c.e = copiedValue := Ht.setVal_val_self _
  refine Tallied.store rfl rfl (keeps_congr rfl rfl ?_) (Copy.next_late kt _ c true) rfl
    (fun hm => absurd (Or.inl rfl) hm.2) (Keeps.of_dead rfl ?_)
  · rw [hv]
    rfl
  · show Dead ((s.ht.setVal c.i c.e copiedValue).val c.i c.e)
    rw [hself]
    exact Or.inl rfl

/-- The tag of a value. -/
theorem tag_tallied (hi : s.Inv kt) (hlt : c.i < s.ht.len) (h0 : s.ht.val c.i c.e ≠ doesNotExist)
    (hht : s'.ht = s.ht.setVal c.i c.e (tagValue (s.ht.val c.i c.e))) (hwon : s'.won = s.won)
    (hl : pc'.late = fun _ => 0)
    (hk : Dead (tagValue (s.ht.val c.i c.e)) ∨ pc'.copy = some c) :
    Tallied s (.copyTag c j) (s', pc') := by
  have hst := hi.chain.stored c.i c.e hlt
  refine Tallied.store hht hwon (keeps_congr hht hwon (occupied_tag hst h0)) hl rfl (fun hm => ?_) ?_
  · exact Or.inr ⟨c, hk.resolve_left hm.2, rfl, rfl⟩
  · rcases hk with hd | hcopy
    · refine Keeps.of_dead rfl ?_
      rw [hht, Ht.setVal_val_self]
      exact hd
    · exact Keeps.of_copy rfl hcopy

/-- The store of `COPIED_VALUE`: the value is in another table. -/
theorem store_tallied {did : Bool} (hi : s.Inv kt) (hc : Carries kt s.ht c j u)
    (hm : Moved (s.ht.cell kt (kt.keyOf (s.ht.key c.i c.e))) (c.i + 1) s.ht.len) :
    Tallied s (.copyStore c j did) (s.setVal c.i c.e copiedValue,
      if did then .copySub c j else c.next kt (s.ht.setVal c.i c.e copiedValue) false) := by
  have hlt : c.i < s.ht.len := Nat.lt_of_succ_lt hc.next
  have hself : (s.ht.setVal c.i c.e copiedValue).val c.i c.e = copiedValue := Ht.setVal_val_self _
  have hold : s.keeps c.i c.e = 0 := by
    refine if_neg fun hkeep => ?_
    rcases hc.source with hv | ⟨hv, -⟩
    · exact hi.history.unmoved c.i c.e u hlt hc.entry hc.legal hv hkeep.2 hm
    · rw [hv] at hkeep
      exact absurd hkeep.1 (by decide)
  have hnew : (s.setVal c.i c.e copiedValue).keeps c.i c.e = 0 :=
    keeps_eq_zero ((congrArg occupied hself).trans rfl)
  refine Tallied.store rfl rfl (hnew.trans hold.symm) ?_ rfl
    (fun hmv => absurd (Or.inl rfl) hmv.2) (Keeps.of_dead rfl ?_)
  · cases did with
    | true => rfl
    | false => exact Copy.next_late kt _ c false
  · show Dead ((s.ht.setVal c.i c.e copiedValue).val c.i c.e)
    rw [hself]
    exact Or.inl rfl

/-- The winner takes the value from the count of its table. -/
theorem sub_tallied (hlt : c.i < s.ht.len) : Tallied s (.copySub c j)
    ({ s with ht := s.ht.addCount c.i (2 ^ 64 - 1) }, .copyAdd c j) := by
  have hent := addCount_entries s.ht c.i (2 ^ 64 - 1)
  refine Tallied.addCount rfl (fun k x => ?_) (fun k => ?_) (d := -1) (by decide) (fun hp k hk => ?_)
    rfl (Keeps.of_copy rfl rfl)
  · unfold Shared.keeps
    rw [hent.val_eq]
  · show ((if j = k then 1 else 0) - (if c.i = k then 1 else 0) : ℤ)
      = (if j = k then 1 else 0) + if c.i = k then -1 else 0
    split_ifs <;> rfl
  · have h := hp k hk
    have hne : c.i ≠ k := (hlt.trans_le hk).ne
    have h' : ((if j = k then 1 else 0) - (if c.i = k then 1 else 0) : ℤ) = 0 := h
    rw [if_neg hne, sub_zero] at h'
    exact h'

/-- The winner adds the value to the count of the other table. -/
theorem add_tallied (kt : KeyType) (hv : s.ht.val c.i c.e = copiedValue) : Tallied s (.copyAdd c j)
    ((({ s with ht := s.ht.addCount j 1 } : Shared).setWon c.i c.e none).credit t c.i c.e,
      c.next kt (s.ht.addCount j 1) true) := by
  have hent := addCount_entries s.ht j 1
  have hlate := Copy.next_late kt (s.ht.addCount j 1) c true
  refine Tallied.addCount rfl (fun k x => ?_) (fun k => ?_) (d := 1) (by decide) (fun _ k _ => ?_) rfl
    (Keeps.of_dead rfl ?_)
  · by_cases hkx : k = c.i ∧ x = c.e
    · obtain ⟨rfl, rfl⟩ := hkx
      refine (keeps_eq_zero ?_).trans (keeps_eq_zero ?_).symm
      · show occupied ((s.ht.addCount j 1).val c.i c.e) = false
        rw [hent.val_eq, hv]
        rfl
      · rw [hv]
        rfl
    · refine ((SameBut.setWon { s with ht := s.ht.addCount j 1 } c.i c.e none).keeps k x hkx).trans ?_
      unfold Shared.keeps
      rw [hent.val_eq]
  · rw [hlate, zero_add]
    rfl
  · rw [hlate]
  · show Dead ((s.ht.addCount j 1).val c.i c.e)
    rw [hent.val_eq, hv]
    exact Or.inl rfl

end CopyEntry

/-! ## All steps -/

section Steps

/-- `hti_lookup` looks at an entry. -/
theorem find_tallied (kt : KeyType) (s : Shared) (f : Finder) (j e : ℕ) (rest : List ℕ) :
    Tallied s (.find f j e rest)
      (if s.ht.key j e = doesNotExist then (s, f.empty j e)
      else if kt.keyEq (s.ht.key j e) (f.key kt) (f.keyHash kt) = true then (s, f.found j e)
      else (s, f.search j rest)) := by
  cases f with
  | op o =>
    have hgo : ∀ pc', pc'.late = (fun _ => 0) → Tallied s (.find (.op o) j e rest) (s, pc') :=
      fun pc' hl => Tallied.read rfl hl rfl rfl
    split_ifs
    · refine hgo _ ?_
      cases o with
      | get key iter => rfl
      | set a =>
        unfold Finder.empty
        simp only
        split_ifs <;> rfl
    · refine hgo _ ?_
      cases o <;> rfl
    · exact hgo _ (Finder.search_late _ _ _)
  | copy c u w =>
    have hgo : ∀ pc', pc'.late = (fun _ => 0) → pc'.copy = some c →
        Tallied s (.find (.copy c u w) j e rest) (s, pc') :=
      fun pc' hl hc => Tallied.stay hl rfl (Keeps.of_copy rfl hc)
    split_ifs
    · exact hgo _ rfl rfl
    · exact hgo _ rfl rfl
    · exact hgo _ (Finder.search_late _ _ _) (Finder.search_copy c u w j rest)

/-- Growing owes no count. -/
theorem Grower.next_late (g : Grower) (j : ℕ) : (g.next j).late = fun _ => 0 := by
  cases g <;> rfl

/-- `ht->hti` is loaded: the call begins at the first table. -/
theorem hti_tallied {b : Begin} {r : Shared × Pc} (hr : resume kt t s (.hti b) = some r) :
    Tallied s (.hti b) r := by
  cases b with
  | cas a =>
    cases hr
    exact Tallied.read rfl rfl rfl rfl
  | op o =>
    cases hr
    exact Tallied.read rfl (Finder.search_late _ _ _) rfl rfl
  | iter =>
    cases hr
    exact Tallied.read rfl rfl rfl rfl

/-- `hti->next` is loaded at the head of a call. -/
theorem check_tallied {who : Option Args} {i : ℕ} {r : Shared × Pc}
    (hr : resume kt t s (.check who i) = some r) : Tallied s (.check who i) r := by
  simp only [resume] at hr
  split at hr
  · cases hr
    exact Tallied.read rfl rfl rfl rfl
  · cases who with
    | some a =>
      cases hr
      exact Tallied.read rfl (Finder.search_late _ _ _) rfl rfl
    | none =>
      cases hr
      exact Tallied.read rfl rfl rfl rfl

/-- `hti->next` is loaded to make it the first table. -/
theorem unlinkNext_tallied {a : Args} {i : ℕ} {r : Shared × Pc}
    (hr : resume kt t s (.unlinkNext a i) = some r) : Tallied s (.unlinkNext a i) r := by
  simp only [resume] at hr
  split at hr
  · cases hr
    exact Tallied.read rfl rfl rfl rfl
  · cases hr

/-- The first table is released when all its entries are copied. -/
theorem unlink_tallied {a : Args} {i : ℕ} (hk : Knows kt s.ht (.unlink a i)) {r : Shared × Pc}
    (hr : resume kt t s (.unlink a i) = some r) : Tallied s (.unlink a i) r := by
  obtain ⟨ho, -, hd⟩ : OpAt kt s.ht (.set a) i ∧ i + 1 < s.ht.len ∧ AllDead s.ht i := hk
  simp only [resume] at hr
  split at hr
  · rename_i hh
    cases hr
    subst hh
    exact Tallied.retire hd ho.lt (Finder.search_late _ _ _) rfl (Keeps.of_none rfl)
  · cases hr
    exact Tallied.read rfl (Finder.search_late _ _ _) rfl rfl

/-- `ht_iter_begin` goes on to the next table. -/
theorem iterNext_tallied {i : ℕ} {r : Shared × Pc} (hr : resume kt t s (.iterNext i) = some r) :
    Tallied s (.iterNext i) r := by
  simp only [resume] at hr
  split at hr
  · cases hr
    exact Tallied.read rfl rfl rfl rfl
  · cases hr

/-- The operation goes on in the next table. -/
theorem nextTable_tallied {o : Op} {i : ℕ} {r : Shared × Pc}
    (hr : resume kt t s (.nextTable o i) = some r) : Tallied s (.nextTable o i) r := by
  simp only [resume] at hr
  split at hr
  · cases hr
    exact Tallied.read rfl (Finder.search_late _ _ _) rfl rfl
  · cases hr

/-- `hti->copy_scan` is loaded, and a stride of entries taken or not. -/
theorem helpScan_tallied {who : Option Args} {i total : ℕ} {r : Shared × Pc}
    (hr : resume kt t s (.helpScan who i total) = some r) :
    Tallied s (.helpScan who i total) r := by
  simp only [resume] at hr
  split at hr
  · cases hr
    exact Tallied.read rfl (helped_late kt s.ht who i true) rfl rfl
  · split at hr
    · cases hr
      exact Tallied.read rfl (Help.next_late kt s.ht _ i 0) rfl rfl
    · cases hr
      exact Tallied.read rfl rfl rfl rfl

/-- `hti_lookup` looks at an entry. -/
theorem resume_find_tallied {f : Finder} {j e : ℕ} {rest : List ℕ} {r : Shared × Pc}
    (hr : resume kt t s (.find f j e rest) = some r) : Tallied s (.find f j e rest) r := by
  have h := find_tallied kt s f j e rest
  simp only [resume] at hr
  split_ifs at h hr
  all_goals
    cases hr
    exact h

/-- `hti_start_copy` looks whether there is a next table. -/
theorem growNext_tallied {g : Grower} {j : ℕ} {r : Shared × Pc}
    (hr : resume kt t s (.growNext g j) = some r) : Tallied s (.growNext g j) r := by
  simp only [resume] at hr
  split at hr
  · cases hr
    exact Tallied.stay (Grower.next_late g j) rfl (Keeps.of_eq (by cases g <;> rfl))
  · cases hr
    exact Tallied.stay rfl rfl (Keeps.of_eq (by cases g <;> rfl))

/-- `ht_count` goes on to the next table. -/
theorem growStep_tallied {g : Grower} {j m n : ℕ} {r : Shared × Pc}
    (hr : resume kt t s (.growStep g j m n) = some r) : Tallied s (.growStep g j m n) r := by
  simp only [resume] at hr
  split at hr
  all_goals
    cases hr
    exact Tallied.stay rfl rfl (Keeps.of_eq (by cases g <;> rfl))

/-- The new table is linked, or another thread was faster. -/
theorem growCas_tallied {g : Grower} {j scale : ℕ} (hi : s.Inv kt) {r : Shared × Pc}
    (hr : resume kt t s (.growCas g j scale) = some r) : Tallied s (.growCas g j scale) r := by
  cases hr
  have hkeeps : ∀ s', Keeps s' (Pc.growCas g j scale) (g.next j) := fun _ =>
    Keeps.of_eq (by cases g <;> rfl)
  split
  · exact Tallied.stay (Grower.next_late g j) rfl (hkeeps s)
  · exact Tallied.append scale (Grower.next_late g j) rfl hi.chain.base_lt.le (hkeeps _)

/-- The CAS on the key of an entry. -/
theorem key_tallied {a : Args} {i e w : ℕ} {r : Shared × Pc}
    (hr : resume kt t s (.key a i e w) = some r) : Tallied s (.key a i e w) r := by
  simp only [resume] at hr
  split at hr
  · cases hr
    exact Tallied.same (SameStore.setTable rfl rfl (fun _ => Hti.setKey_val _ _) rfl rfl) rfl rfl
      (Keeps.of_none rfl)
  · cases hr
    exact Tallied.read rfl (Finder.search_late _ _ _) rfl rfl

/-- The value of the entry is loaded. -/
theorem val_tallied {a : Args} {i e : ℕ} {r : Shared × Pc}
    (hr : resume kt t s (.val a i e) = some r) : Tallied s (.val a i e) r := by
  simp only [resume] at hr
  split_ifs at hr
  all_goals
    cases hr
    exact Tallied.read rfl rfl rfl rfl

/-- The CAS on the value. -/
theorem resume_swap_tallied {a : Args} {i e v : ℕ} (hkt : kt.Lawful) (hi : s.Inv kt)
    (hk : Knows kt s.ht (.swap a i e v)) {r : Shared × Pc}
    (hr : resume kt t s (.swap a i e v) = some r) : Tallied s (.swap a i e v) r := by
  simp only [resume] at hr
  split at hr
  · rename_i hv
    cases hr
    exact swap_tallied hkt hi hk hv
  · rename_i hv
    cases hr
    exact Tallied.read rfl (Finder.search_late _ _ _) (if_neg hv) rfl

/-- The change of the value is counted. -/
theorem count_tallied {a : Args} {i v : ℕ} {r : Shared × Pc}
    (hr : resume kt t s (.count a i v) = some r) : Tallied s (.count a i v) r := by
  cases hr
  have hent := addCount_entries s.ht i (if a.new = doesNotExist then 2 ^ 64 - 1 else 1)
  refine Tallied.addCount rfl (fun k x => ?_) (fun k => ?_)
    (d := if a.new = doesNotExist then -1 else 1) ?_ (fun _ _ _ => rfl) rfl (Keeps.of_none rfl)
  · unfold Shared.keeps
    rw [hent.val_eq]
  · exact (zero_add _).symm
  · split_ifs <;> decide

/-- A key that is not there: `hti_get` looks for a next table. -/
theorem getNext_tallied {key : ℕ} {iter : Bool} {i : ℕ} {r : Shared × Pc}
    (hr : resume kt t s (.getNext key iter i) = some r) : Tallied s (.getNext key iter i) r := by
  simp only [resume] at hr
  split at hr
  all_goals
    cases hr
    exact Tallied.read rfl rfl rfl rfl

/-- `hti_get` loads the value. -/
theorem getVal_tallied {key : ℕ} {iter : Bool} {i e : ℕ} {r : Shared × Pc}
    (hr : resume kt t s (.getVal key iter i e) = some r) : Tallied s (.getVal key iter i e) r := by
  simp only [resume] at hr
  split_ifs at hr
  all_goals
    cases hr
    exact Tallied.read rfl rfl rfl rfl

/-- The next table of the copy is loaded. -/
theorem copyTo_tallied {c : Copy} {j : ℕ} {r : Shared × Pc}
    (hr : resume kt t s (.copyTo c j) = some r) : Tallied s (.copyTo c j) r := by
  simp only [resume] at hr
  split at hr
  · cases hr
    exact Tallied.stay rfl rfl (Keeps.of_copy rfl rfl)
  · cases hr

/-- `hti_copy_entry` loads the value. -/
theorem copyVal_tallied {c : Copy} {j : ℕ} {r : Shared × Pc}
    (hr : resume kt t s (.copyVal c j) = some r) : Tallied s (.copyVal c j) r := by
  simp only [resume] at hr
  split_ifs at hr with hd
  · cases hr
    exact Tallied.stay (Copy.next_late kt s.ht c false) rfl (Keeps.of_dead rfl hd)
  all_goals
    cases hr
    exact Tallied.stay rfl rfl (Keeps.of_copy rfl rfl)

/-- The CAS of `COPIED_VALUE` into an empty entry. -/
theorem copyKill_tallied {c : Copy} {j : ℕ} {r : Shared × Pc}
    (hr : resume kt t s (.copyKill c j) = some r) : Tallied s (.copyKill c j) r := by
  simp only [resume] at hr
  split at hr
  · rename_i hv
    cases hr
    exact kill_tallied kt hv
  · cases hr
    exact Tallied.stay rfl rfl (Keeps.of_copy rfl rfl)

/-- The value is tagged. -/
theorem copyTag_tallied {c : Copy} {j : ℕ} (hi : s.Inv kt) (hk : Knows kt s.ht (.copyTag c j))
    {r : Shared × Pc} (hr : resume kt t s (.copyTag c j) = some r) :
    Tallied s (.copyTag c j) r := by
  obtain ⟨hc, h0⟩ : CopyTo kt s.ht c j ∧ s.ht.val c.i c.e ≠ doesNotExist := hk
  have hlt : c.i < s.ht.len := Nat.lt_of_succ_lt hc.next
  simp only [resume] at hr
  split_ifs at hr with hd htomb
  · cases hr
    refine tag_tallied hi hlt h0 rfl rfl (Copy.next_late kt _ c false) (Or.inl ?_)
    rw [tagValue_of_isTagged hd.isTagged]
    exact hd
  · cases hr
    refine tag_tallied hi hlt h0 rfl rfl (Copy.next_late kt _ c true) (Or.inl ?_)
    rw [htomb]
    exact Or.inr rfl
  · cases hr
    exact tag_tallied hi hlt h0 rfl rfl rfl (Or.inr rfl)

/-- The key is loaded, to be looked up in the next table. -/
theorem copyKey_tallied {c : Copy} {j u : ℕ} {r : Shared × Pc}
    (hr : resume kt t s (.copyKey c j u) = some r) : Tallied s (.copyKey c j u) r := by
  cases hr
  refine Tallied.stay (Finder.search_late _ _ _) rfl fun c' hc' => Or.inl ?_
  cases hc'
  exact ⟨_, Finder.search_copy _ _ _ _ _, rfl, rfl⟩

/-- The CAS of the key into the next table. -/
theorem copyInstall_tallied {c : Copy} {j u f w : ℕ} {r : Shared × Pc}
    (hr : resume kt t s (.copyInstall c j u f w) = some r) :
    Tallied s (.copyInstall c j u f w) r := by
  simp only [resume] at hr
  split at hr
  · cases hr
    exact Tallied.same (SameStore.setTable rfl rfl (fun _ => Hti.setKey_val _ _) rfl rfl) rfl rfl
      (Keeps.of_copy rfl rfl)
  · cases hr
    exact Tallied.stay rfl rfl (Keeps.of_copy rfl rfl)

/-- The CAS of the value into the next table. -/
theorem copyPut_tallied {c : Copy} {j u f : ℕ} (hi : s.Inv kt)
    (hk : Knows kt s.ht (.copyPut c j u f)) {r : Shared × Pc}
    (hr : resume kt t s (.copyPut c j u f) = some r) : Tallied s (.copyPut c j u f) r := by
  obtain ⟨hc, hf⟩ : Carries kt s.ht c j u
    ∧ EntryOf kt s.ht (kt.keyOf (s.ht.key c.i c.e)) j f := hk
  simp only [resume] at hr
  split_ifs at hr with hv
  · cases hr
    exact put_tallied hi hc hf hv
  all_goals
    cases hr
    exact Tallied.stay rfl rfl (Keeps.of_copy rfl rfl)

/-- `COPIED_VALUE` is stored in the old entry. -/
theorem copyStore_tallied {c : Copy} {j : ℕ} {did : Bool} (hi : s.Inv kt)
    (hk : Knows kt s.ht (.copyStore c j did)) {r : Shared × Pc}
    (hr : resume kt t s (.copyStore c j did) = some r) : Tallied s (.copyStore c j did) r := by
  obtain ⟨⟨u, hc⟩, hm⟩ : (∃ u, Carries kt s.ht c j u)
    ∧ Moved (s.ht.cell kt (kt.keyOf (s.ht.key c.i c.e))) (c.i + 1) s.ht.len := hk
  cases hr
  exact store_tallied hi hc hm

/-- **What every step of a running call does to the counts.** -/
theorem resume_tallied (hkt : kt.Lawful) (hi : s.Inv kt) (hk : Knows kt s.ht pc)
    {r : Shared × Pc} (hr : resume kt t s pc = some r) : Tallied s pc r := by
  cases pc with
  | returned r' => cases hr
  | hti b => exact hti_tallied hr
  | check who i => exact check_tallied hr
  | unlinkNext a i => exact unlinkNext_tallied hr
  | unlink a i => exact unlink_tallied hk hr
  | iterNext i => exact iterNext_tallied hr
  | nextTable o i => exact nextTable_tallied hr
  | helpTotal who i =>
    cases hr
    exact Tallied.read rfl rfl rfl rfl
  | helpScan who i total => exact helpScan_tallied hr
  | helpStore who i total x =>
    cases hr
    exact Tallied.same (SameStore.setTable rfl rfl (fun _ => rfl) rfl rfl)
      (Help.next_late kt s.ht _ i _) rfl (Keeps.of_none rfl)
  | helpAdd g i =>
    cases hr
    exact Tallied.same (SameStore.setTable rfl rfl (fun _ => rfl) rfl rfl)
      (helped_late kt _ g.who i _) rfl (Keeps.of_none rfl)
  | find f j e rest => exact resume_find_tallied hr
  | growNext g j => exact growNext_tallied hr
  | growHti g j =>
    cases hr
    exact Tallied.stay rfl rfl (Keeps.of_eq (by cases g <;> rfl))
  | growCount g j m n =>
    cases hr
    exact Tallied.stay rfl rfl (Keeps.of_eq (by cases g <;> rfl))
  | growStep g j m n => exact growStep_tallied hr
  | growKeys g j n =>
    cases hr
    exact Tallied.stay rfl rfl (Keeps.of_eq (by cases g <;> rfl))
  | growCas g j scale => exact growCas_tallied hi hr
  | install a i e =>
    cases hr
    exact Tallied.same ⟨rfl, rfl, fun _ => rfl, fun _ _ => rfl, fun _ => rfl, rfl⟩ rfl rfl
      (Keeps.of_none rfl)
  | key a i e w => exact key_tallied hr
  | keyCount a i e =>
    cases hr
    exact Tallied.same (SameStore.setTable rfl rfl (fun _ => rfl) rfl rfl) rfl rfl
      (Keeps.of_none rfl)
  | val a i e => exact val_tallied hr
  | swap a i e v => exact resume_swap_tallied hkt hi hk hr
  | count a i v => exact count_tallied hr
  | getNext key iter i => exact getNext_tallied hr
  | getVal key iter i e => exact getVal_tallied hr
  | addCopied o i =>
    cases hr
    exact Tallied.same (SameStore.setTable rfl rfl (fun _ => rfl) rfl rfl) rfl rfl
      (Keeps.of_none rfl)
  | copyTo c j => exact copyTo_tallied hr
  | copyVal c j => exact copyVal_tallied hr
  | copyKill c j => exact copyKill_tallied hr
  | copyTag c j => exact copyTag_tallied hi hk hr
  | copyKey c j u => exact copyKey_tallied hr
  | copyInstall c j u f w => exact copyInstall_tallied hr
  | copyKeyCount c j u f =>
    cases hr
    exact Tallied.same (SameStore.setTable rfl rfl (fun _ => rfl) rfl rfl) rfl rfl
      (Keeps.of_copy rfl rfl)
  | copyPut c j u f => exact copyPut_tallied hi hk hr
  | copyStore c j did => exact copyStore_tallied hi hk hr
  | copySub c j =>
    obtain ⟨hc, -⟩ : CopyAt kt s.ht c ∧ s.ht.val c.i c.e = copiedValue := hk
    cases hr
    exact sub_tallied (Nat.lt_of_succ_lt hc.next)
  | copyAdd c j =>
    obtain ⟨-, hv⟩ : CopyAt kt s.ht c ∧ s.ht.val c.i c.e = copiedValue := hk
    cases hr
    exact add_tallied kt hv

/-- A call begins. -/
theorem invoke_tallied {cmd : Cmd} (hp : invoke pc cmd = some pc') : Tallied s pc (s, pc') := by
  have hstart : ∀ r pc', pc'.late = (fun _ => 0) → Tallied s (.returned r) (s, pc') :=
    fun r pc' hl => Tallied.read rfl hl rfl rfl
  cases pc with
  | returned r =>
    cases cmd with
    | cas a =>
      simp only [invoke] at hp
      split at hp
      · cases hp
        exact hstart r _ rfl
      · cases hp
    | remove key =>
      simp only [invoke] at hp
      split at hp
      · cases hp
        exact hstart r _ rfl
      · cases hp
    | resume => cases hp
    | _ =>
      cases hp
      exact hstart r _ rfl
  | _ => cases hp

/-- **What every step does to the counts.** -/
theorem step_tallied (hkt : kt.Lawful) (hi : s.Inv kt) (hk : Knows kt s.ht pc) {cmd : Cmd}
    {r : Shared × Pc} (hr : step kt t s pc cmd = some r) : Tallied s pc r := by
  by_cases hc : cmd = .resume
  · subst hc
    exact resume_tallied hkt hi hk hr
  · have hinv : (invoke pc cmd).map (fun pc' => (s, pc')) = some r := by
      rw [← hr]
      cases cmd <;> first | rfl | exact absurd rfl hc
    obtain ⟨pc', hp, rfl⟩ := Option.map_eq_some_iff.mp hinv
    exact invoke_tallied hp

end Steps

end HashtableSteps
