/-
# Helping ends

`txn_validate` on its own, in any state in which the transactions may have been stopped:
some running, some validating with a write version or without one, some decided.  The
recursion between `txn_validate` and `validate_key` may come back to a transaction that is
still being validated further out, but

* `Helpable` — the update lists are finite, and the write versions that were taken are
  distinct and not above `version_`;
* `rank` — the number of transactions without a write version, then the write version of
  the transaction that is validated: helping a writer makes it smaller;
* `validation_returns` — every `txn_validate` ends with a verdict.
-/
import Ssr.TxnLists
import Mathlib.Data.Prod.Lex

open Map

namespace Txn

/-! ## States in which a transaction may be helped -/

/-- The transactions are those below `txns`; their updates stand in finite lists of records that
were not freed. -/
structure Helpable (s : St) : Prop where
  lists : ∀ key, ∃ us e, Path (fun u => (s.record u).next) (s.map key) us e
    ∧ ∀ u ∈ us, u ∉ s.freed ∧ ∀ w, (s.record u).version = .owner w → w < s.txns
  distinct : ∀ x < s.txns, ∀ y < s.txns, (s.txn x).wv ≠ undeterminedVersion →
    (s.txn x).wv = (s.txn y).wv → x = y
  bounded : ∀ x < s.txns, (s.txn x).wv ≤ s.version

/-- The transactions without a write version. -/
def St.unassigned (s : St) : ℕ :=
  ((Finset.range s.txns).filter fun x => (s.txn x).wv = undeterminedVersion).card

/-- What decreases from one `txn_validate` to the next one inside it. -/
def rank (s : St) (x : ℕ) : ℕ ×ₗ ℕ :=
  toLex ((s.acquireVersion x).unassigned, ((s.acquireVersion x).txn x).wv)

/-- What validating leaves: only states and write versions change, and no verdict is taken back. -/
structure Advanced (s s' : St) : Prop where
  map : s'.map = s.map
  record : s'.record = s.record
  freed : s'.freed = s.freed
  txns : s'.txns = s.txns
  rv : ∀ x, (s'.txn x).rv = (s.txn x).rv
  writes : ∀ x, (s'.txn x).writes = (s.txn x).writes
  wv : ∀ x, (s.txn x).wv ≠ undeterminedVersion → (s'.txn x).wv = (s.txn x).wv
  running : ∀ x, (s.txn x).state ≠ .running → (s'.txn x).state ≠ .running
  unassigned : s'.unassigned ≤ s.unassigned
  helpable : Helpable s'

section Advanced

variable {s s' s'' : St} {x w : ℕ}

theorem Advanced.refl (hs : Helpable s) : Advanced s s where
  map := rfl
  record := rfl
  freed := rfl
  txns := rfl
  rv _ := rfl
  writes _ := rfl
  wv _ _ := rfl
  running _ h := h
  unassigned := le_rfl
  helpable := hs

theorem Advanced.trans (h : Advanced s s') (h' : Advanced s' s'') : Advanced s s'' where
  map := h'.map.trans h.map
  record := h'.record.trans h.record
  freed := h'.freed.trans h.freed
  txns := h'.txns.trans h.txns
  rv x := (h'.rv x).trans (h.rv x)
  writes x := (h'.writes x).trans (h.writes x)
  wv x hx := (h'.wv x (by rwa [h.wv x hx])).trans (h.wv x hx)
  running x hx := h'.running x (h.running x hx)
  unassigned := h'.unassigned.trans h.unassigned
  helpable := h'.helpable

/-- A verdict is stored. -/
theorem Advanced.setState (hs : Helpable s) (x : ℕ) {r : State} (hr : r ≠ .running) :
    Advanced s (s.setState x r) := by
  have htxn : ∀ y, ((s.setState x r).txn y).rv = (s.txn y).rv
      ∧ ((s.setState x r).txn y).wv = (s.txn y).wv
      ∧ ((s.setState x r).txn y).writes = (s.txn y).writes
      ∧ ((s.txn y).state ≠ .running → ((s.setState x r).txn y).state ≠ .running) := by
    intro y
    by_cases hy : y = x
    · subst hy
      simp [St.setState, hr]
    · simp [St.setState, hy]
  refine ⟨rfl, rfl, rfl, rfl, fun y => (htxn y).1, fun y => (htxn y).2.2.1, fun y _ => (htxn y).2.1,
    fun y => (htxn y).2.2.2, ?_, hs.lists, ?_, ?_⟩
  · simp only [St.unassigned, (htxn _).2.1]
    rfl
  · intro y hy z hz hne heq
    rw [(htxn y).2.1] at hne heq
    rw [(htxn z).2.1] at heq
    exact hs.distinct y hy z hz hne heq
  · intro y hy
    rw [(htxn y).2.1]
    exact hs.bounded y hy

theorem acquire_of_ne (hx : (s.txn x).wv ≠ undeterminedVersion) : s.acquireVersion x = s :=
  if_neg hx

/-- A new write version is larger than all others. -/
theorem Advanced.acquire (hs : Helpable s) (hx : x < s.txns) :
    Advanced s (s.acquireVersion x) ∧ ((s.acquireVersion x).txn x).wv ≠ undeterminedVersion
      ∧ ((s.acquireVersion x).txn x).state = (s.txn x).state
      ∧ ((s.txn x).wv = undeterminedVersion → (s.acquireVersion x).unassigned < s.unassigned) := by
  by_cases hwv : (s.txn x).wv = undeterminedVersion
  · have heq : s.acquireVersion x = { s with
        version := s.version + 1
        txn := Function.update s.txn x { s.txn x with wv := s.version + 1 } } := if_pos hwv
    rw [heq]
    have hother : ∀ y, y ≠ x →
        Function.update s.txn x { s.txn x with wv := s.version + 1 } y = s.txn y := fun y hy =>
      Function.update_of_ne hy ..
    have hself : Function.update s.txn x { s.txn x with wv := s.version + 1 } x
        = { s.txn x with wv := s.version + 1 } := Function.update_self ..
    have hless : (St.unassigned { s with
        version := s.version + 1
        txn := Function.update s.txn x { s.txn x with wv := s.version + 1 } }) < s.unassigned := by
      refine Finset.card_lt_card ((Finset.ssubset_iff_of_subset fun y hy => ?_).mpr ⟨x, ?_, ?_⟩)
      · obtain ⟨hmem, hy⟩ := Finset.mem_filter.mp hy
        have hne : y ≠ x := by
          rintro rfl
          simp only [hself] at hy
          cases hy
        simp only [hother y hne] at hy
        exact Finset.mem_filter.mpr ⟨hmem, hy⟩
      · exact Finset.mem_filter.mpr ⟨Finset.mem_range.mpr hx, hwv⟩
      · intro hmem
        have hx' := (Finset.mem_filter.mp hmem).2
        simp only [hself] at hx'
        cases hx'
    refine ⟨⟨rfl, rfl, rfl, rfl, fun y => ?_, fun y => ?_, fun y hy => ?_, fun y hy => ?_, hless.le,
      hs.lists, fun y hy z hz hne heq => ?_, fun y hy => ?_⟩, ?_, ?_, fun _ => hless⟩
    · by_cases hyx : y = x
      · simp only [hyx, hself]
      · simp only [hother y hyx]
    · by_cases hyx : y = x
      · simp only [hyx, hself]
      · simp only [hother y hyx]
    · have hyx : y ≠ x := by
        rintro rfl
        exact hy hwv
      simp only [hother y hyx]
    · by_cases hyx : y = x
      · subst hyx
        simpa only [hself] using hy
      · simpa only [hother y hyx] using hy
    · -- nobody else has the new version
      by_cases hyx : y = x <;> by_cases hzx : z = x
      · rw [hyx, hzx]
      · simp only [hyx, hself, hother z hzx] at heq
        have hbound := hs.bounded z hz
        omega
      · simp only [hzx, hself, hother y hyx] at heq
        have hbound := hs.bounded y hy
        omega
      · simp only [hother y hyx, hother z hzx] at hne heq
        exact hs.distinct y hy z hz hne heq
    · by_cases hyx : y = x
      · simp only [hyx, hself]
        exact le_rfl
      · simp only [hother y hyx]
        exact (hs.bounded y hy).trans (Nat.le_succ _)
    · simp only [hself]
      exact Nat.succ_ne_zero _
    · simp only [hself]
  · rw [acquire_of_ne hwv]
    exact ⟨Advanced.refl hs, hwv, rfl, fun h => absurd h hwv⟩

end Advanced

/-! ## With enough fuel -/

/-- With enough fuel the function returns `r`. -/
def Returns {α : Type*} (f : ℕ → Except Fault α) (r : α) : Prop :=
  ∃ fuel, ∀ fuel' ≥ fuel, f fuel' = .ok r

section Returns

variable {α β : Type*} {f g : ℕ → Except Fault α} {k : ℕ → Except Fault β} {a : α} {r : β}

theorem Returns.now {f : ℕ → Except Fault β} (hf : ∀ fuel, f (fuel + 1) = .ok r) : Returns f r := by
  refine ⟨1, fun fuel' hfuel => ?_⟩
  obtain ⟨fuel, rfl⟩ := Nat.exists_eq_succ_of_ne_zero (Nat.ne_of_gt hfuel)
  exact hf fuel

/-- A call inside has returned, and the function goes on. -/
theorem Returns.bind {f : ℕ → Except Fault β} (hg : Returns g a)
    (hf : ∀ fuel, g fuel = .ok a → f (fuel + 1) = k fuel) (hk : Returns k r) : Returns f r := by
  obtain ⟨fuel₁, hg⟩ := hg
  obtain ⟨fuel₂, hk⟩ := hk
  refine ⟨max fuel₁ fuel₂ + 1, fun fuel' hfuel => ?_⟩
  obtain ⟨fuel, rfl⟩ : ∃ fuel, fuel' = fuel + 1 := ⟨fuel' - 1, by omega⟩
  have hle : max fuel₁ fuel₂ ≤ fuel := Nat.le_of_succ_le_succ hfuel
  rw [hf fuel (hg fuel ((le_max_left _ _).trans hle))]
  exact hk fuel ((le_max_right _ _).trans hle)

theorem Returns.next {f : ℕ → Except Fault β} (hf : ∀ fuel, f (fuel + 1) = k fuel)
    (hk : Returns k r) : Returns f r := by
  obtain ⟨fuel₁, hk⟩ := hk
  refine ⟨fuel₁ + 1, fun fuel' hfuel => ?_⟩
  obtain ⟨fuel, rfl⟩ : ∃ fuel, fuel' = fuel + 1 := ⟨fuel' - 1, by omega⟩
  rw [hf fuel]
  exact hk fuel (Nat.le_of_succ_le_succ hfuel)

theorem Returns.pure (a : α) : Returns (fun _ => .ok a) a := ⟨0, fun _ _ => rfl⟩

end Returns

/-! ## The recursion -/

/-- The validation of a transaction ends with its verdict. -/
def Validates (s : St) (x : ℕ) : Prop :=
  ∃ s' r, Returns (fun fuel => txnValidate fuel s x) (s', r) ∧ (r = .validated ∨ r = .aborted)
    ∧ (s'.txn x).state = r ∧ Advanced s s'

section Recursion

variable {s : St} {x w U : ℕ}

/-- Helping a writer makes the rank smaller. -/
theorem rank_lt (hs : Helpable s) (hx : x < s.txns) (hw : w < s.txns) (hwx : w ≠ x)
    (hle : ¬ (s.txn x).wv < (s.txn w).wv) (hU : s.unassigned ≤ U) :
    rank s w < toLex (U, (s.txn x).wv) := by
  rw [rank, Prod.Lex.toLex_lt_toLex]
  by_cases hnone : (s.txn w).wv = undeterminedVersion
  · exact .inl (((Advanced.acquire hs hw).2.2.2 hnone).trans_le hU)
  · rw [acquire_of_ne hnone]
    have hne : (s.txn w).wv ≠ (s.txn x).wv := fun heq => hwx (hs.distinct w hw x hx hnone heq)
    show s.unassigned < U ∨ s.unassigned = U ∧ (s.txn w).wv < (s.txn x).wv
    omega

/-- `validate_key`, when the transactions of smaller rank are validated. -/
theorem validateKey_returns {val e : Val} {us : List ℕ} (hs : Helpable s) (hx : x < s.txns)
    (hwv : (s.txn x).wv ≠ undeterminedVersion) (hU : s.unassigned ≤ U)
    (hpath : Path (fun u => (s.record u).next) val us e)
    (hus : ∀ u ∈ us, u ∉ s.freed ∧ ∀ w, (s.record u).version = .owner w → w < s.txns)
    (ih : ∀ s' w, Helpable s' → w < s'.txns → (s'.txn w).state = .validating →
      rank s' w < toLex (U, (s.txn x).wv) → Validates s' w) :
    ∃ s' r, Returns (fun fuel => validateKey fuel s x val) (s', r)
      ∧ (r = .validated ∨ r = .aborted) ∧ Advanced s s' := by
  induction us generalizing s val with
  | nil =>
    cases hpath with
    | dne => exact ⟨s, .validated, Returns.now fun _ => rfl, .inl rfl, Advanced.refl hs⟩
    | lit v => exact ⟨s, .validated, Returns.now fun _ => rfl, .inl rfl, Advanced.refl hs⟩
  | cons u us ihus =>
    cases hpath with
    | cons hrest =>
      obtain ⟨hfree, howner⟩ := hus u List.mem_cons_self
      have hus' : ∀ v ∈ us, v ∉ s.freed ∧ ∀ w, (s.record v).version = .owner w → w < s.txns :=
        fun v hv => hus v (List.mem_cons_of_mem u hv)
      have hread := read_eq hfree
      -- the rest of the list, when nothing was changed
      have hgo := ihus hs hx hwv hU hrest hus' ih
      obtain ⟨s', r, hgo, hr, hadv⟩ := hgo
      have hdecide : ∀ n, (if n ≤ (s.txn x).rv then State.validated else .aborted) = .validated
          ∨ (if n ≤ (s.txn x).rv then State.validated else .aborted) = .aborted := fun n => by
        split_ifs <;> simp
      cases hver : (s.record u).version with
      | num n =>
        refine ⟨s, _, Returns.now fun fuel => ?_, hdecide n, Advanced.refl hs⟩
        simp only [validateKey, hread, hver]
      | aborted =>
        refine ⟨s', r, Returns.next (fun fuel => ?_) hgo, hr, hadv⟩
        simp only [validateKey, hread, hver]
      | owner w =>
        by_cases hwx : w = x
        · refine ⟨s', r, Returns.next (fun fuel => ?_) hgo, hr, hadv⟩
          simp only [validateKey, hread, hver, if_pos hwx]
        · cases hstate : (s.txn w).state with
          | running =>
            refine ⟨s', r, Returns.next (fun fuel => ?_) hgo, hr, hadv⟩
            simp only [validateKey, hread, hver, if_neg hwx, hstate]
          | aborted =>
            refine ⟨s', r, Returns.next (fun fuel => ?_) hgo, hr, hadv⟩
            simp only [validateKey, hread, hver, if_neg hwx, hstate]
          | validated =>
            refine ⟨s, _, Returns.now fun fuel => ?_, hdecide (s.txn w).wv, Advanced.refl hs⟩
            simp only [validateKey, hread, hver, if_neg hwx, hstate]
          | validating =>
            by_cases hlater : (s.txn x).wv < (s.txn w).wv
            · refine ⟨s', r, Returns.next (fun fuel => ?_) hgo, hr, hadv⟩
              simp only [validateKey, hread, hver, if_neg hwx, hstate, if_pos hlater]
            · -- the writer is helped
              have hw : w < s.txns := howner w hver
              obtain ⟨s₁, r₁, hret, hr₁, -, hadv₁⟩ :=
                ih s w hs hw hstate (rank_lt hs hx hw hwx hlater hU)
              have hwv₁ := hadv₁.wv x hwv
              have hrest₁ : Path (fun v => (s₁.record v).next) (s₁.record u).next us e := by
                rw [hadv₁.record]
                exact hrest
              obtain ⟨s₂, r₂, hgo₂, hr₂, hadv₂⟩ := ihus hadv₁.helpable (hadv₁.txns ▸ hx)
                (hwv₁ ▸ hwv) (hadv₁.unassigned.trans hU) hrest₁
                (by rwa [hadv₁.record, hadv₁.freed, hadv₁.txns]) (by rwa [hwv₁])
              rw [hadv₁.record] at hgo₂
              rcases hr₁ with rfl | rfl
              · refine ⟨s₁, if (s₁.txn w).wv ≤ (s₁.txn x).rv then .validated else .aborted,
                  hret.bind (fun fuel hf => ?_) (Returns.pure _), ?_, hadv₁⟩
                · simp only [validateKey, hread, hver, if_neg hwx, hstate, if_neg hlater, hf]
                · split_ifs <;> simp
              · refine ⟨s₂, r₂, hret.bind (fun fuel hf => ?_) hgo₂, hr₂, hadv₁.trans hadv₂⟩
                simp only [validateKey, hread, hver, if_neg hwx, hstate, if_neg hlater, hf]

/-- The loop over the write set. -/
theorem validateWrites_returns (writes : List (ℕ × ℕ)) (hs : Helpable s) (hx : x < s.txns)
    (hstate : (s.txn x).state ≠ .running) (hwv : (s.txn x).wv ≠ undeterminedVersion)
    (hU : s.unassigned ≤ U)
    (ih : ∀ s' w, Helpable s' → w < s'.txns → (s'.txn w).state = .validating →
      rank s' w < toLex (U, (s.txn x).wv) → Validates s' w) :
    ∃ s', Returns (fun fuel => validateWrites fuel s x writes) s' ∧ Advanced s s' := by
  induction writes generalizing s with
  | nil => exact ⟨s, Returns.now fun _ => rfl, Advanced.refl hs⟩
  | cons kv writes ihws =>
    obtain ⟨us, e, hpath, hus⟩ := hs.lists kv.1
    obtain ⟨s₁, r, hret, hr, hadv⟩ := validateKey_returns hs hx hwv hU hpath hus ih
    rcases hr with rfl | rfl
    · have hwv₁ := hadv.wv x hwv
      obtain ⟨s₂, hret₂, hadv₂⟩ := ihws hadv.helpable (hadv.txns ▸ hx) (hadv.running x hstate)
        (hwv₁ ▸ hwv) (hadv.unassigned.trans hU) (by rwa [hwv₁])
      refine ⟨s₂, Returns.bind hret (fun fuel hf => ?_) hret₂, hadv.trans hadv₂⟩
      simp only [validateWrites, hf]
    · refine ⟨s₁.setState x .aborted, Returns.bind hret (fun fuel hf => ?_) (Returns.pure _),
        hadv.trans (Advanced.setState hadv.helpable x (by decide))⟩
      simp only [validateWrites, hf]

/-- Every validation ends, by induction on the rank. -/
theorem validates (n : ℕ ×ₗ ℕ) : ∀ s x, Helpable s → x < s.txns → (s.txn x).state = .validating →
    rank s x = n → Validates s x := by
  induction n using WellFoundedLT.induction with
  | ind n ih =>
    intro s x hs hx hstate hn
    obtain ⟨hadv, hwv, hsame, -⟩ := Advanced.acquire hs hx
    have hx₁ : x < (s.acquireVersion x).txns := hadv.txns ▸ hx
    obtain ⟨s₂, hret, hadv₂⟩ := validateWrites_returns ((s.acquireVersion x).txn x).writes
      hadv.helpable hx₁ (by rw [hsame, hstate]; decide) hwv le_rfl
      (fun s' w hs' hw hstate' hlt => ih (rank s' w) (hn ▸ hlt) s' w hs' hw hstate' rfl)
    have hall := hadv.trans hadv₂
    have hnot : (s₂.txn x).state ≠ .running := hall.running x (by rw [hstate]; decide)
    by_cases hdone : (s₂.txn x).state = .validating
    · refine ⟨s₂.setState x .validated, .validated,
        Returns.bind hret (fun fuel hf => ?_) (Returns.pure _), .inl rfl, ?_,
        hall.trans (Advanced.setState hall.helpable x (by decide))⟩
      · simp [txnValidate, hstate, hf, hdone, St.setState]
      · simp [St.setState]
    · refine ⟨s₂, (s₂.txn x).state,
        Returns.bind hret (fun fuel hf => ?_) (Returns.pure _), ?_, rfl, hall⟩
      · simp only [txnValidate, hstate, hf, if_neg hdone]
      · revert hnot hdone
        cases (s₂.txn x).state <;> simp

end Recursion

/-- **Helping terminates.** `txn_validate` of a transaction that is validating returns, with
the transaction validated or aborted. -/
theorem validation_returns (s : St) (t : ℕ) (hs : Helpable s) (ht : t < s.txns)
    (hstate : (s.txn t).state = .validating) :
    ∃ fuel s' r, (∀ fuel' ≥ fuel, txnValidate fuel' s t = .ok (s', r))
      ∧ (r = .validated ∨ r = .aborted) ∧ (s'.txn t).state = r := by
  obtain ⟨s', r, ⟨fuel, hret⟩, hr, hstate', -⟩ := validates (rank s t) s t hs ht hstate rfl
  exact ⟨fuel, s', r, hret, hr, hstate'⟩

/-- Two transactions that have set keys `1` and `2` and are both being validated: `1` has taken
write version `2`, `0` has none.  Validating `1` helps `0`, which takes `3` and helps `1`. -/
def crossed : St where
  map key := if key = 1 then .upd 0 else if key = 2 then .upd 2 else .dne
  record u := if u = 0 then ⟨.owner 0, 5, .upd 1⟩ else if u = 1 then ⟨.owner 1, 6, .dne⟩
    else if u = 2 then ⟨.owner 1, 7, .upd 3⟩ else ⟨.owner 0, 8, .dne⟩
  brk := 4
  freed := []
  txn x := if x = 0 then ⟨1, 0, [(1, 5), (2, 8)], .validating⟩
    else ⟨1, 2, [(1, 6), (2, 7)], .validating⟩
  live x := x < 2
  txns := 2
  version := 2
  active := [(1, 4)]
  sets x := if x = 0 then [(2, 8), (1, 5)] else [(2, 7), (1, 6)]
  commits := []

theorem crossed_owner (u w : ℕ) (h : (crossed.record u).version = .owner w) :
    w < crossed.txns := by
  simp only [crossed] at h
  split_ifs at h <;> cases h <;> decide

theorem crossed_helpable : Helpable crossed where
  lists key := by
    by_cases h₁ : key = 1
    · subst h₁
      exact ⟨[0, 1], .dne, .cons (.cons .dne),
        fun u _ => ⟨List.not_mem_nil, crossed_owner u⟩⟩
    · by_cases h₂ : key = 2
      · subst h₂
        exact ⟨[2, 3], .dne, .cons (.cons .dne),
        fun u _ => ⟨List.not_mem_nil, crossed_owner u⟩⟩
      · refine ⟨[], .dne, ?_, fun u _ => ⟨List.not_mem_nil, crossed_owner u⟩⟩
        have hmap : crossed.map key = .dne := by simp [crossed, h₁, h₂]
        rw [hmap]
        exact .dne
  distinct := by decide
  bounded := by decide

theorem validation_returns_crossed : ∃ fuel s' r,
    (∀ fuel' ≥ fuel, txnValidate fuel' crossed 1 = .ok (s', r))
      ∧ (r = .validated ∨ r = .aborted) ∧ (s'.txn 1).state = r :=
  validation_returns crossed 1 crossed_helpable (by decide) (by decide)

end Txn
