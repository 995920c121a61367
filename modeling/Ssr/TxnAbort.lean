/-
# What `txn_abort` undoes

`txn_abort` marks the records of its transaction as aborted, and every later search
passes over them.  It does not lower the count that `txn_begin` raised: `active_` is
left as it was, where a `txn_commit` that ends in `TXN_ABORTED` lowers the count of the
same read version.
-/
import Ssr.TxnOrder

open Interleaving Map Active

namespace Txn

/-! ## Aborted records -/

section Skips

variable {s s' : St} {u : ℕ}

/-- The loops of `validate_key` and `txn_map_get` pass over record `u`, whoever runs them. -/
def Skips (s : St) (u : ℕ) : Prop :=
  u ∉ s.freed → ∀ fuel w,
    validateKey (fuel + 1) s w (.upd u) = validateKey fuel s w (s.record u).next
      ∧ getWalk (fuel + 1) s w (.upd u) = getWalk fuel s w (s.record u).next

theorem skips_of_aborted (h : (s.record u).version = .aborted) : Skips s u := by
  intro hu fuel w
  constructor
  · rw [validateKey, read_eq hu]
    simp only [h]
  · rw [getWalk, read_eq hu]
    simp only [h]

/-- A record that is aborted stays so. -/
theorem aborted_step {c : Call} (h : Order s) (hstep : stepAny s c = some s')
    (hu : u < s.brk ∧ (s.record u).version = .aborted) :
    u < s'.brk ∧ (s'.record u).version = .aborted := by
  obtain ⟨hlt, hver⟩ := hu
  -- the end of a transaction touches its own records only
  have hends : ∀ {t v}, s.live t = true → Ends s s' t v →
      u < s'.brk ∧ (s'.record u).version = .aborted := by
    intro t v ht he
    have hnot : u ∉ (s.txn t).writes.map Prod.snd := by
      intro hmem
      obtain ⟨p, hp, rfl⟩ := List.mem_map.mp hmem
      rw [((h.running t ht).writes p hp).2] at hver
      cases hver
    rw [he.brk, he.record u, if_neg hnot]
    exact ⟨hlt, hver⟩
  have hcall := step_cases hstep
  cases c with
  | begin =>
    have hcall : txnBegin s = .ok s' := hcall
    unfold txnBegin at hcall
    split at hcall
    · cases hcall
    · cases hcall
      exact ⟨hlt, hver⟩
  | set t key value =>
    obtain ⟨ht, rfl⟩ := hcall
    have hp := txnMapSet_pushed (h.running t ht).state s.brk key value
    rw [hp.brk, if_pos rfl, hp.record u hlt.ne]
    exact ⟨Nat.lt_succ_of_lt hlt, hver⟩
  | get t key =>
    obtain ⟨ht, r, hget⟩ := hcall
    rcases txnMapGet_cases (h.ownersRun t) (h.running t ht).state hget with rfl | ⟨v, -, hcol⟩
    · exact ⟨hlt, hver⟩
    · have hc := collect_collected hcol
      rw [hc.rest.1, hc.version_eq]
      exact ⟨hlt, hver⟩
  | commit t =>
    obtain ⟨ht, state, hcommit⟩ := hcall
    obtain ⟨⟨-, -, he⟩ | ⟨-, he⟩, -⟩ := txnCommit_ok h ht hcommit
    · exact hends ht he
    · exact hends ht he
  | abort t =>
    obtain ⟨ht, rfl⟩ := hcall
    exact hends ht (txnAbort_ends (h.running t ht))

theorem aborted_run {calls : List Call} (h : Order s) (hrun : run stepAny s calls = some s')
    (hu : u < s.brk ∧ (s.record u).version = .aborted) : (s'.record u).version = .aborted := by
  have hsteps : ∀ s c s', (Order s ∧ u < s.brk ∧ (s.record u).version = .aborted) →
      stepAny s c = some s' → Order s' ∧ u < s'.brk ∧ (s'.record u).version = .aborted :=
    fun _ _ _ hs hstep => ⟨order_step hs.1 hstep, aborted_step hs.1 hstep hs.2⟩
  exact (run_invariant_always hsteps ⟨h, hu⟩ hrun).2.2

end Skips

/-! ## The count -/

section Count

variable {rv version n v : ℕ} {l l' : List (ℕ × ℕ)}

/-- The entry of `rv` drops by one, and disappears at zero. -/
def Drops (rv : ℕ) (l l' : List (ℕ × ℕ)) : Prop :=
  ∃ n, slFind rv l = some (n + 1) ∧ slFind rv l' = if n = 0 then none else some n

theorem slPut_length (h : slFind rv l = some n) : (slPut rv v l).length = l.length := by
  induction l with
  | nil => cases h
  | cons e l ih =>
    simp only [slFind] at h
    simp only [slPut]
    split_ifs at h ⊢
    · rw [List.length_cons, List.length_cons, ih h]
    · rfl

theorem slRemove_length (h : slFind rv l = some n) : (slRemove rv l).length + 1 = l.length := by
  induction l with
  | nil => cases h
  | cons e l ih =>
    simp only [slFind] at h
    simp only [slRemove]
    split_ifs at h ⊢
    · rw [List.length_cons, List.length_cons, ih h]
    · rfl

/-- A round that finds the count 1 removes the entry. -/
theorem lowerCount_one {fuel old : ℕ} (hver : rv ≠ version) (hf : slFind rv l = some 1)
    (h : lowerCount rv version (fuel + 1) old l = .ok l') : l'.length < l.length := by
  have hone : (1 : ℕ) ≠ doesNotExist := by decide
  rw [lowerCount] at h
  by_cases hold : old = expectDoesNotExist
  · have h₁ : slCas rv old (decr old) l = some (1, l) := by
      simp only [slCas, hf, if_neg hone, if_pos hold]
    simp only [h₁] at h
    rw [if_pos ⟨rfl, hver⟩] at h
    cases h
    have hlen := slRemove_length hf
    omega
  · have h₁ : slCas rv old (decr old) l = some (1, slPut rv (decr old) l) := by
      simp only [slCas, hf, if_neg hone, if_neg hold]
    simp only [h₁] at h
    rw [if_pos ⟨rfl, hver⟩] at h
    cases h
    have hlen := slRemove_length (slFind_slPut_self rv (decr old) l)
    have hput := slPut_length (v := decr old) hf
    omega

/-- The loop of `txn_commit` never leaves `active_` as it was. -/
theorem lowerCount_ne (hver : rv ≠ version) (h : lowerCount rv version 4 2 l = .ok l') :
    l' ≠ l := by
  rintro rfl
  rw [lowerCount] at h
  cases hf : slFind rv l' with
  | none =>
    have h₁ : slCas rv 2 (decr 2) l' = some (doesNotExist, l') := by
      simp [slCas, hf, expectDoesNotExist, expectWhatever]
    have h₂ : slCas rv 0 (decr 0) l' = some (doesNotExist, slPut rv (decr 0) l') := by
      simp [slCas, hf, expectDoesNotExist]
    -- the second round inserts the missing entry
    have hput : slPut rv (decr 0) l' = l' := by
      simpa [h₁, lowerCount, h₂, doesNotExist] using h
    have hfind := slFind_slPut_self rv (decr 0) l'
    rw [hput, hf] at hfind
    cases hfind
  | some n =>
    by_cases hn : n = doesNotExist
    · simp [slCas, hf, hn] at h
    · have h₁ : slCas rv 2 (decr 2) l' = some (n, slPut rv (decr 2) l') := by
        simp [slCas, hf, hn, expectDoesNotExist]
      have hfind := slFind_slPut_self rv (decr 2) l'
      have hlen := slPut_length (v := decr 2) hf
      simp only [h₁] at h
      split_ifs at h with hone htwo
      · have hrem := slRemove_length hfind
        rw [Except.ok.inj h] at hrem
        omega
      · -- the count 2 has become 1
        rw [Except.ok.inj h, hf] at hfind
        cases hfind
        exact absurd htwo (by decide)
      · have hshort := lowerCount_one hver hfind h
        omega

end Count

/-! ## txn_abort -/

/-- **Abort does not undo begin.**  In every state reached by any sequence of calls, for
every running transaction `t`: after `txn_abort` every later search of the others passes
over all records of `t`, but `active_` is what it was, so the entry of `t`'s read version
does not drop, and `active_` is never what the `txn_commit` of `t` would leave. -/
theorem abort_keeps_count (calls : List Call) (s : St) (hrun : run stepAny init calls = some s)
    (t : ℕ) (ht : s.live t = true) :
    (∀ calls' s', run stepAny (txnAbort s t) calls' = some s' →
        ∀ p ∈ (s.txn t).writes, Skips s' p.2)
      ∧ (txnAbort s t).active = s.active
      ∧ ¬ Drops (s.txn t).rv s.active (txnAbort s t).active
      ∧ ∀ s' state, txnCommit s t = .ok (s', state) → s'.active ≠ (txnAbort s t).active := by
  have h := order_run init_order hrun
  have hr := h.running t ht
  have he := txnAbort_ends hr
  have hactive := (txnAbort_fields s t).1
  refine ⟨fun calls' s' hrun' p hp => ?_, hactive, ?_, fun s' state hcommit => ?_⟩
  · have h' := he.order h ht (txnAbort_fields s t).2.1 (.inl rfl)
    refine skips_of_aborted (aborted_run h' hrun' ⟨?_, ?_⟩)
    · rw [he.brk]
      exact (hr.writes p hp).1
    · rw [he.record, if_pos (List.mem_map_of_mem hp)]
  · rintro ⟨n, hn, hn'⟩
    rw [hactive, hn] at hn'
    split at hn'
    · cases hn'
    · simp at hn'
  · rw [hactive]
    have hrv := hr.rv_le
    exact lowerCount_ne (by omega) (txnCommit_ok h ht hcommit).2.2.2

/-- A transaction that lost to another writer: aborting it leaves its count, committing it
removes the count. -/
def lostRun : List Call := [.begin, .begin, .set 1 5 11, .commit 1, .set 0 5 12]

theorem abort_keeps_count_one_writer :
    ∃ s, run stepAny init lostRun = some s ∧ s.live 0 = true
      ∧ (∀ calls' s', run stepAny (txnAbort s 0) calls' = some s' →
          ∀ p ∈ (s.txn 0).writes, Skips s' p.2)
      ∧ ¬ Drops (s.txn 0).rv s.active (txnAbort s 0).active := by
  have h : (run stepAny init lostRun).map (fun s => s.live 0) = some true := by decide +kernel
  obtain ⟨s, hrun, hlive⟩ := Option.map_eq_some_iff.mp h
  obtain ⟨hskip, -, hdrop, -⟩ := abort_keeps_count lostRun s hrun 0 hlive
  exact ⟨s, hrun, hlive, hskip, hdrop⟩

/-- The count of version 1 stays at 1 with no transaction left that runs at it; the
`txn_commit` of the same transaction ends in `TXN_ABORTED` and removes it. -/
theorem aborted_transaction_still_counted :
    ∃ s, run stepAny init lostRun = some s ∧ s.live 0 = true ∧ (s.txn 0).rv = 1
      ∧ s.active = [(1, 1)] ∧ (txnAbort s 0).active = [(1, 1)]
      ∧ ¬ Drops 1 s.active (txnAbort s 0).active
      ∧ (∀ u, (txnAbort s 0).live u = false)
      ∧ (txnCommit s 0).toOption.map (fun r => (r.1.active, r.2)) = some ([], .aborted) := by
  have h : (run stepAny init lostRun).map (fun s =>
      (s.live 0, (txnAbort s 0).live 0, (txnAbort s 0).live 1, (s.txn 0).rv, s.txns))
      = some (true, false, false, 1, 2) := by decide +kernel
  have h' : (run stepAny init lostRun).map (fun s => (s.active, (txnAbort s 0).active))
      = some ([(1, 1)], [(1, 1)]) := by decide +kernel
  have h'' : (run stepAny init lostRun).map (fun s =>
      (txnCommit s 0).toOption.map fun r => (r.1.active, r.2))
      = some (some ([], .aborted)) := by decide +kernel
  obtain ⟨s, hrun, heq⟩ := Option.map_eq_some_iff.mp h
  rw [hrun] at h' h''
  simp only [Option.map_some, Option.some.injEq, Prod.mk.injEq] at heq h' h''
  obtain ⟨hlive, h0, h1, hrv, htxns⟩ := heq
  obtain ⟨hactive, habort⟩ := h'
  refine ⟨s, hrun, hlive, hrv, hactive, habort, ?_, fun u => ?_, h''⟩
  · rw [hactive, habort]
    rintro ⟨n, hn, hn'⟩
    rw [hn] at hn'
    split at hn'
    · cases hn'
    · simp at hn'
  · have hs := order_run init_order hrun
    have h' := (txnAbort_ends (hs.running 0 hlive)).order hs hlive (txnAbort_fields s 0).2.1
      (.inl rfl)
    have hcases : u = 0 ∨ u = 1 ∨ 2 ≤ u := by omega
    obtain rfl | rfl | hu := hcases
    · exact h0
    · exact h1
    · apply h'.fresh
      rw [(txnAbort_fields s 0).2.1, htxns]
      exact hu

end Txn
