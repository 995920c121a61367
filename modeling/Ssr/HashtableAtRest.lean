/-
# The hash table at rest

What the threads have still to add to the counts, added up over the threads; and the finite
map that a run leaves behind.

* `Tally` — what holds of the counts in every state of a run;
* `AtRest.refines` — at rest, the table stands for a finite map, as after calls of one thread;
* `count_at_rest` — `ht_count` is the number of keys that `ht_get` finds.
-/
import Ssr.HashtableTally

open Interleaving Map Migration Hashtable

namespace HashtableSteps

variable {kt : KeyType} {c c' : Conf Shared Pc} {es : List (ℕ × Cmd)} {t i e k n : ℕ} {cmd : Cmd}
  {m : List (ℕ × ℕ)}

/-! ## The counts along a run -/

/-- The finite map that the table stands for. -/
structure Models (kt : KeyType) (s : Shared) (m : List (ℕ × ℕ)) : Prop where
  keyed : WellKeyed kt m
  legal : ∀ p ∈ m, Legal p.2
  value : ∀ k, s.ht.absMap kt k = mapGet kt m k
  length : m.length = s.total

/-- **The counts**, in a run of threads under `n`. -/
structure Tally (kt : KeyType) (n : ℕ) (c : Conf Shared Pc) : Prop where
  placed : ∀ t i, c.shared.ht.len ≤ i → (c.thread t).late i = 0
  bounded : ∀ i, (c.shared.ht.tables i).count < 2 ^ 64
  balance : ∀ i, i < c.shared.ht.len →
    ((c.shared.ht.tables i).count + ∑ t ∈ Finset.range n, (c.thread t).late i : ℤ)
      ≡ c.shared.stored i [ZMOD 2 ^ 64]
  moving : ∀ i e, Moving (c.shared.ht.val i e) → ∃ t, (c.thread t).Copies i e
  models : ∃ m, Models kt c.shared m

theorem init_tally (kt : KeyType) (n : ℕ) : Tally kt n init := by
  have hval : ∀ i e, init.shared.ht.val i e = doesNotExist := fun _ _ => rfl
  have hstored : ∀ i, init.shared.stored i = 0 := fun i =>
    Finset.sum_eq_zero fun e _ => keeps_eq_zero (by rw [hval]; rfl)
  refine ⟨fun _ _ _ => rfl, fun _ => Nat.two_pow_pos 64, fun i _ => ?_, fun i e hm => ?_, [], ?_⟩
  · have hsum : ∑ t ∈ Finset.range n, (init.thread t).late i = 0 :=
      Finset.sum_eq_zero fun _ _ => rfl
    rw [hstored, hsum]
    rfl
  · rw [hval] at hm
    exact absurd hm.1 (by decide)
  · refine ⟨⟨List.Pairwise.nil, nofun⟩, nofun, absMap_init kt, ?_⟩
    exact (Finset.sum_eq_zero fun i _ => hstored i).symm

/-- The finite map after a successful `SYNC_CAS` of `hti_cas`. -/
theorem Models.write (hkt : kt.Lawful) {s s' : Shared} {a : Args} {v : ℕ} {m : List (ℕ × ℕ)}
    (hm : Models kt s m) (ha : (Op.set a).Ok) (hst : Stored v) (hw : Wrote kt a v s.ht s'.ht)
    (htotal : (s'.total : ℤ) = s.total + ((occupied a.word).toNat - (occupied v).toNat : ℤ)) :
    ∃ m', Models kt s' m' := by
  have hold : mapGet kt m a.key = meaning v := by
    rw [← hm.value]
    exact hw.before a.key (KeyType.Same.refl hkt a.key)
  have hlen := mapErase_length hkt hm.keyed.pairwise a.key
  rw [hold, isSome_meaning hst hw.opened, hm.length] at hlen
  have hword := (stored_word ha.2).2.1
  have hmean := meaning_word ha
  by_cases hnew : a.new = doesNotExist
  · rw [if_pos hnew] at hmean
    refine ⟨mapErase kt m a.key, hm.keyed.erase a.key, fun p hp => hm.legal p (List.mem_of_mem_filter hp),
      fun k => ?_, ?_⟩
    · rw [mapGet_erase hkt]
      split
      · rename_i hs
        rw [hw.after k hs, hmean]
      · rename_i hs
        rw [hw.others k hs, hm.value]
    · rw [show occupied a.word = false from hword.trans (decide_eq_false (not_not.mpr hnew))] at htotal
      simp only [Bool.toNat_false] at htotal
      omega
  · rw [if_neg hnew] at hmean
    refine ⟨mapSet kt m a.key a.new, hm.keyed.set hkt ha.1 a.new, fun p hp => ?_, fun k => ?_, ?_⟩
    · rcases List.mem_cons.mp hp with rfl | hp
      · exact ha.2.resolve_left hnew
      · exact hm.legal p (List.mem_of_mem_filter hp)
    · rw [mapGet_set hkt]
      split
      · rename_i hs
        rw [hw.after k hs, hmean]
      · rename_i hs
        rw [hw.others k hs, hm.value]
    · rw [show occupied a.word = true from hword.trans (decide_eq_true hnew)] at htotal
      show (mapErase kt m a.key).length + 1 = s'.total
      simp only [Bool.toNat_true] at htotal
      omega

/-- The step of a `SYNC_CAS` that finds the value that it expects. -/
theorem swap_step {a : Args} {v : ℕ} (hpc : c.thread t = .swap a i e v)
    (hv : c.shared.ht.val i e = v) (hstep : sys kt c (t, cmd) = some c') :
    c'.shared = c.shared.setVal i e a.word := by
  obtain ⟨pc', hprog, -⟩ := interleave_eq_some.mp hstep
  simp only [hpc] at hprog
  cases cmd with
  | resume =>
    have hres : resume kt t c.shared (.swap a i e v) = some (c'.shared, pc') := hprog
    simp only [resume, if_pos hv, Option.some.injEq, Prod.mk.injEq] at hres
    exact hres.1.symm
  | _ => cases hprog

/-- A step of thread `t`. -/
theorem Tally.step (hkt : kt.Lawful) (ht : t < n) (hc : c.Holds (Shared.Inv kt) (Loc kt))
    (h : Tally kt n c) (hstep : sys kt c (t, cmd) = some c') : Tally kt n c' := by
  obtain ⟨pc', hprog, hthr⟩ := interleave_eq_some.mp hstep
  have hthr : c'.thread = Function.update c.thread t pc' := hthr
  have htal := step_tallied hkt hc.1 (hc.2 t).knows hprog
  have hok := step_ok hkt hc.1 (hc.2 t) hprog
  have hlen : c.shared.ht.len ≤ c'.shared.ht.len := (grows_step hkt hc hstep).len
  have hself : c'.thread t = pc' := by
    rw [hthr]
    exact Function.update_self ..
  have hother : ∀ u, u ≠ t → c'.thread u = c.thread u := fun u hu => by
    rw [hthr]
    exact Function.update_of_ne hu ..
  have hplaced : ∀ u i, c.shared.ht.len ≤ i → (c'.thread u).late i = 0 := fun u i hi => by
    by_cases hu : u = t
    · rw [hu, hself]
      exact htal.placed (h.placed t) i hi
    · rw [hother u hu]
      exact h.placed u i hi
  refine ⟨fun u i hi => hplaced u i (hlen.trans hi), htal.bounded h.bounded, fun i hi => ?_,
    fun i e hm => ?_, ?_⟩
  · by_cases hlt : i < c.shared.ht.len
    · -- the sum over the threads changes by what thread `t` has to add
      have hsum := sum_thread_update (fun pc => Pc.late pc i) c.thread (Finset.mem_range.mpr ht) pc'
      have hbal := htal.balance i hlt
      have hold := h.balance i hlt
      rw [hthr]
      unfold Int.ModEq at hbal hold ⊢
      simp only at hsum hbal
      omega
    · obtain ⟨hcount, hstored⟩ := htal.fresh i (Nat.not_lt.mp hlt) hi
      have hsum : ∑ u ∈ Finset.range n, (c'.thread u).late i = 0 :=
        Finset.sum_eq_zero fun u _ => hplaced u i (Nat.not_lt.mp hlt)
      rw [hcount, hstored, hsum]
      rfl
  · rcases htal.moving i e hm with hcopy | ⟨hm', hnot⟩
    · exact ⟨t, by rw [hself]; exact hcopy⟩
    · obtain ⟨u, hu⟩ := h.moving i e hm'
      have hne : u ≠ t := by
        rintro rfl
        exact hnot hu
      exact ⟨u, by rw [hother u hne]; exact hu⟩
  · obtain ⟨m, hm⟩ := h.models
    have htotal := htal.total
    by_cases hswap : ∃ a i e v, c.thread t = .swap a i e v ∧ c.shared.ht.val i e = v
    · obtain ⟨a, i, e, v, hpc, hv⟩ := hswap
      have hknows := (hc.2 t).knows
      rw [hpc] at hknows htotal
      have hk : OpAt kt c.shared.ht (.set a) i ∧ EntryOf kt c.shared.ht a.key i e ∧ ¬ IsTagged v
        ∧ ¬ a.Keeps v := hknows
      have hst : Stored v := hv ▸ hc.1.chain.stored i e hk.1.lt
      have hshared := swap_step hpc hv hstep
      refine hm.write hkt hk.1.ok hst ?_
        (htotal.trans (congrArg (fun x : ℤ => c.shared.total + x) (if_pos hv)))
      rw [hshared]
      exact (swapped hkt hc.1 hknows hv).wrote
    · have hgain : (c.thread t).gain c.shared = 0 := by
        unfold Pc.gain
        split
        · rename_i a i e v hpc
          exact if_neg fun hv => hswap ⟨a, i, e, v, hpc, hv⟩
        · rfl
      rw [hgain, add_zero] at htotal
      rcases hok.map with hmap | ⟨a, i, e, v, hpc, hv, -⟩
      · exact ⟨m, hm.keyed, hm.legal, fun k => (hmap k).trans (hm.value k), by
          rw [hm.length]
          exact_mod_cast htotal.symm⟩
      · exact absurd ⟨a, i, e, v, hpc, hv⟩ hswap

/-- **The counts in every state of a run.** -/
theorem tally_run (hkt : kt.Lawful) (hes : ∀ x ∈ es, x.1 < n)
    (hrun : run (sys kt) init es = some c) : Tally kt n c := by
  have hstep : ∀ (c : Conf Shared Pc) (x : ℕ × Cmd) (c' : Conf Shared Pc),
      c.Holds (Shared.Inv kt) (Loc kt) ∧ Tally kt n c → x.1 < n → sys kt c x = some c' →
      c'.Holds (Shared.Inv kt) (Loc kt) ∧ Tally kt n c' := fun c x c' hc hx hstep =>
    ⟨holds_step hkt hc.1 hstep, hc.2.step hkt hx hc.1 hstep⟩
  exact (run_invariant hstep ⟨init_holds kt, init_tally kt n⟩ (stepsMeet_of_forall_mem hes init)
    hrun).2

/-! ## At rest -/

section AtRest

theorem AtRest.stored_eq (hrest : AtRest c) (hc : c.Holds (Shared.Inv kt) (Loc kt)) (i : ℕ) :
    c.shared.stored i = census occupied c.shared.ht i := by
  refine Finset.sum_congr rfl fun e _ => ?_
  unfold Shared.keeps
  rw [hrest.won_none hc i e]
  cases occupied (c.shared.ht.val i e) <;> rfl

/-- The count of a table at rest. -/
theorem AtRest.count_eq (hkt : kt.Lawful) (hrest : AtRest c)
    (hc : c.Holds (Shared.Inv kt) (Loc kt)) (h : Tally kt n c) (hbi : c.shared.ht.hti ≤ i)
    (hi : i < c.shared.ht.len) :
    (c.shared.ht.tables i).count = census occupied c.shared.ht i := by
  obtain ⟨m, hm⟩ := h.models
  have hlate : ∑ t ∈ Finset.range n, (c.thread t).late i = 0 := Finset.sum_eq_zero fun t _ => by
    obtain ⟨r, hr⟩ := hrest t
    rw [hr]
    rfl
  have hbal := h.balance i hi
  have hbound := h.bounded i
  have hle : c.shared.stored i ≤ c.shared.total :=
    Finset.single_le_sum (fun _ _ => Nat.zero_le _) (Finset.mem_Ico.mpr ⟨hbi, hi⟩)
  have hlt := hm.keyed.length_lt hkt
  rw [hm.length] at hlt
  rw [hlate, add_zero] at hbal
  rw [← hrest.stored_eq hc]
  unfold Int.ModEq at hbal
  omega

/-- No value is being copied at rest. -/
theorem AtRest.quiet (hrest : AtRest c) (h : Tally kt n c) (ht : IsTagged (c.shared.ht.val i e)) :
    Dead (c.shared.ht.val i e) := by
  by_contra hd
  obtain ⟨t, cp, hcopy, -⟩ := h.moving i e ⟨ht, hd⟩
  obtain ⟨r, hr⟩ := hrest t
  rw [hr] at hcopy
  cases hcopy

/-- **The table at rest** stands for a finite map, as after calls of one thread. -/
theorem AtRest.refines (hkt : kt.Lawful) (hrest : AtRest c)
    (hrun : run (sys kt) init es = some c) :
    ∃ m, (∀ p ∈ m, Legal p.2) ∧ Refines kt c.shared.ht c.shared.ht.hti m := by
  have hc := holds_run hkt hrun
  have h : Tally kt ((es.map Prod.fst).sum + 1) c := tally_run hkt (fun x hx =>
    Nat.lt_succ_of_le (List.le_sum_of_mem (List.mem_map_of_mem hx))) hrun
  obtain ⟨m, hm⟩ := h.models
  refine ⟨m, hm.legal, hc.1.chain, hm.value, ⟨fun i hbi hi => hrest.count_eq hkt hc h hbi hi, ?_,
    fun i _ hi => ?_, fun i e _ _ ht => Or.inl (hrest.quiet h ht), hc.1.ledger.scan⟩, hm.keyed⟩
  · rw [hm.length]
    exact Finset.sum_congr rfl fun i _ => (hrest.stored_eq hc i).symm
  · rw [← hrest.copied_eq hc hi, add_zero]
    refine Finset.sum_congr rfl fun e he => ?_
    rw [hrest.trues_eq hc hi (Finset.mem_range.mp he)]
    unfold dead
    split
    · rename_i hd
      rw [decide_eq_true hd]
      rfl
    · rename_i hd
      rw [decide_eq_false hd]
      rfl

theorem mapGet_ne_iff (hlegal : ∀ p ∈ m, Legal p.2) (k : ℕ) :
    (mapGet kt m k).getD doesNotExist ≠ doesNotExist ↔ ∃ key ∈ m.map Prod.fst, kt.Same key k := by
  unfold mapGet
  cases hf : m.find? fun p => kt.Same p.1 k with
  | none =>
    refine iff_of_false (fun h => h rfl) ?_
    rintro ⟨key, hkey, hs⟩
    obtain ⟨p, hp, rfl⟩ := List.mem_map.mp hkey
    exact List.find?_eq_none.mp hf p hp (decide_eq_true hs)
  | some p =>
    have hp := List.mem_of_find?_eq_some hf
    have hs := List.find?_some hf
    exact iff_of_true (hlegal p hp).1 ⟨p.1, List.mem_map_of_mem hp, of_decide_eq_true hs⟩

/-- **The count at rest.**  When no operation is in progress, `ht_count` is the number of keys
that `ht_get` finds, after any run of any number of threads. -/
theorem count_at_rest (kt : KeyType) (hkt : kt.Lawful) (es : List (ℕ × Cmd)) (c : Conf Shared Pc)
    (hrun : run (sys kt) init es = some c) (hrest : AtRest c) :
    ∃ keys : List ℕ, keys.Pairwise (fun k k' => ¬ kt.Same k k')
      ∧ htCount c.shared.ht = keys.length
      ∧ ∀ k, ∃ r, (∀ fuel, c.shared.ht.len < fuel →
          htGet kt fuel c.shared.ht k = some (r, c.shared.ht))
        ∧ (r ≠ doesNotExist ↔ ∃ key ∈ keys, kt.Same key k) := by
  obtain ⟨m, hlegal, h⟩ := hrest.refines hkt hrun
  refine ⟨m.map Prod.fst, List.pairwise_map.mpr h.keyed.pairwise, ?_, fun k =>
    ⟨(mapGet kt m k).getD doesNotExist, fun fuel hfuel => ?_, mapGet_ne_iff hlegal k⟩⟩
  · rw [htCount_eq hkt h, List.length_map]
  · refine htiGet_spec h (Nat.sub_le _ _) hfuel le_rfl h.inv.base_lt fun x hx hlt => ?_
    omega

end AtRest

/-- The threads under `n` have returned, and the others have done nothing. -/
theorem atRest_of_lt (hes : ∀ x ∈ es, x.1 < n) (hrun : run (sys kt) init es = some c)
    (h : ∀ t, t < n → ∃ r, c.thread t = .returned r) : AtRest c := by
  intro t
  by_cases ht : t < n
  · exact h t ht
  · have hne : ∀ x ∈ es, x.1 ≠ t := fun x hx hxt => ht (by rw [← hxt]; exact hes x hx)
    exact ⟨0, run_thread_eq hne hrun⟩

theorem count_at_rest_migrated :
    ∃ c, ∃ keys : List ℕ, run (sys oneHash) init migrated = some c ∧ htCount c.shared.ht = 19
      ∧ keys.length = 19 ∧ keys.Pairwise (fun k k' => ¬ oneHash.Same k k') := by
  have hmap : (run (sys oneHash) init migrated).map
      (fun c => (c.thread 0, c.thread 1, htCount c.shared.ht))
        = some (.returned 0, .returned 0, 19) := by
    decide +kernel
  obtain ⟨c, hrun, hc⟩ := Option.map_eq_some_iff.mp hmap
  simp only [Prod.mk.injEq] at hc
  obtain ⟨h0, h1, hcount⟩ := hc
  have hes : ∀ x ∈ migrated, x.1 < 2 := by decide +kernel
  have hrest : AtRest c := atRest_of_lt hes hrun fun t ht => by
    interval_cases t
    · exact ⟨0, h0⟩
    · exact ⟨0, h1⟩
  obtain ⟨keys, hkeys, hlen, -⟩ := count_at_rest oneHash trivial migrated c hrun hrest
  exact ⟨c, keys, hrun, hcount, hlen.symm.trans hcount, hkeys⟩

end HashtableSteps
