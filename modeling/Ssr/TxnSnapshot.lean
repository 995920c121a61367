/-
# Snapshot reads and first committer wins

Every call keeps the invariant of the update lists, so in every state of a run whose
calls all fit:

* `txn_map_get` reads no freed record and returns the value of the transaction's
  snapshot, and what it collects or merges changes no other read;
* of two committed transactions that wrote a common key, one committed before the
  other began.
-/
import Ssr.TxnLists

open Interleaving Map Active

namespace Txn

section Calls

variable {s : St} {home : ℕ → ℕ}

/-! ## txn_begin -/

theorem Inv.begin (hi : Inv s home) (hfit : Fits s .begin) :
    ∃ s', txnBegin s = .ok s' ∧ Inv s' home := by
  have hraise := raiseCount_eq hi.covers.counts hfit.2
  obtain ⟨hdead, hnone⟩ := hi.fresh s.txns le_rfl
  refine ⟨_, by rw [txnBegin, hraise], ?_⟩
  -- the old transactions are untouched
  have hne : ∀ w, s.live w = true → w ≠ s.txns := by
    rintro w hw rfl
    rw [hdead] at hw
    cases hw
  have hlive : ∀ w, Function.update s.live s.txns true w = true → w = s.txns ∨ s.live w = true := by
    intro w hw
    by_cases hwt : w = s.txns
    · exact Or.inl hwt
    · rw [Function.update_of_ne hwt] at hw
      exact Or.inr hw
  refine ⟨fun key => ?_, fun t ht => ?_, fun t ht => ?_, hi.freed_lt, hi.commits_le,
    hi.commits_sorted, hi.commits_apart, ?_⟩
  · obtain ⟨us, e, hk⟩ := hi.keys key
    refine ⟨us, e, hk.transport rfl (fun _ _ => rfl) le_rfl (fun u hu => (hk.alloc u hu).2.1)
      (fun _ _ => rfl) (fun w hw => ?_) (fun r hr => ?_) rfl (fun t ht => ?_)⟩
    · simp only [Function.update_of_ne (hne w hw)]
      exact ⟨hw, trivial, fun _ hp => hp⟩
    · rcases hr with ⟨w, hw, rfl⟩ | hr
      · rcases hlive w hw with rfl | hl
        · refine Or.inr (le_of_eq ?_)
          simp only [Function.update_self]
        · refine Or.inl ⟨w, hl, ?_⟩
          simp only [Function.update_of_ne (hne w hl)]
      · exact Or.inr hr
    · rcases hlive t ht with rfl | hl
      · refine Or.inr ⟨hdead, ?_⟩
        show lastSet key (s.sets s.txns) = none
        rw [hnone]
        rfl
      · exact Or.inl ⟨hl, rfl⟩
  · rcases hlive t ht with rfl | hl
    · refine ⟨Nat.lt_succ_self _, ?_, ?_, ?_, ?_⟩ <;> simp [undeterminedVersion]
    · have hr := hi.running t hl
      have htxn : Function.update s.txn s.txns ⟨s.version, undeterminedVersion, [], .running⟩ t
          = s.txn t := Function.update_of_ne (hne t hl) _ _
      refine ⟨hr.lt.trans (Nat.lt_succ_self _), ?_, ?_, ?_, ?_⟩ <;> simp only [htxn]
      · exact hr.state
      · exact hr.wv
      · exact hr.rv_le
      · exact hr.writes
  · have hts : t ≠ s.txns := (Nat.lt_of_succ_le ht).ne'
    obtain ⟨h₁, h₂⟩ := hi.fresh t ((Nat.le_succ _).trans ht)
    refine ⟨?_, h₂⟩
    simp only [Function.update_of_ne hts]
    exact h₁
  · refine hi.covers.begin (t := s.txns) hfit hdead rfl rfl ?_ (fun w hw => ?_)
    · simp only [Function.update_self]
    · simp only [Function.update_of_ne hw]

/-! ## txn_map_set -/

theorem Inv.set (hi : Inv s home) {t : ℕ} (ht : s.live t = true) (key value : ℕ) :
    Inv (txnMapSet s s.brk t key value) (Function.update home s.brk key) := by
  have hrun := hi.running t ht
  have hp := txnMapSet_pushed hrun.state s.brk key value
  have hnew : s.brk ∉ s.freed := fun hmem => absurd (hi.freed_lt _ hmem) (lt_irrefl _)
  have hfree := hp.taken hnew
  generalize txnMapSet s s.brk t key value = s' at hp hfree
  have hbrk : s'.brk = s.brk + 1 := hp.brk.trans (if_pos rfl)
  have hle : s.brk ≤ s'.brk := by omega
  have hlt : s.brk < s'.brk := by omega
  have hhome : ∀ {us : List ℕ}, (∀ v ∈ us, v < s.brk) →
      ∀ v ∈ us, Function.update home s.brk key v = home v :=
    fun h v hv => Function.update_of_ne (h v hv).ne _ _
  refine ⟨fun k => ?_, fun w hw => ?_, fun w hw => ?_, fun v hv => ?_, ?_, ?_, ?_, ?_⟩
  · obtain ⟨us, e, hk⟩ := hi.keys k
    have hold : ∀ v ∈ us, v < s.brk := fun v hv => (hk.alloc v hv).1
    by_cases hkk : k = key
    · subst hkk
      exact ⟨s.brk :: us, e, hp.keyInv_self hk ht hold ⟨hlt, hfree, Function.update_self ..⟩
        (hhome hold) hle⟩
    · exact ⟨us, e, hp.keyInv_of_ne hk hkk (fun hmem => (hold _ hmem).false) (hhome hold) hle⟩
  · rw [hp.live] at hw
    have hr := hi.running w hw
    exact hp.running hr hle hlt fun p hp' => (hr.writes p hp').1.ne
  · rw [hp.txns] at hw
    obtain ⟨h₁, h₂⟩ := hi.fresh w hw
    have hwt : w ≠ t := fun heq => absurd hrun.lt (Nat.not_lt.mpr (heq ▸ hw))
    rw [hp.live, hp.sets w hwt]
    exact ⟨h₁, h₂⟩
  · have hne : v ≠ s.brk := fun heq => hfree (heq ▸ hv)
    exact (hi.freed_lt v ((hp.freed v hne).mp hv)).trans_le hle
  · rw [hp.commits, hp.version]
    exact hi.commits_le
  · rw [hp.commits]
    exact hi.commits_sorted
  · rw [hp.commits]
    exact hi.commits_apart
  · exact hi.covers.shrink hp.active fun w hw => ⟨hp.live ▸ hw, (hp.txn_eq w).1⟩

/-! ## The end of a transaction -/

/-- What the invariant needs besides the lists when `t` ends. -/
theorem Ends.inv {s' : St} {t : ℕ} {v : Ver} (h : Ends s s' t v) (hi : Inv s home)
    (htxns : s'.txns = s.txns) (hkeys : ∀ key, ∃ us e, KeyInv s' home key us e)
    (hlive : s.live t = true)
    (hle : ∀ c ∈ s'.commits, c.wv ≤ s'.version)
    (hsorted : s'.commits.Pairwise fun c d => d.wv < c.wv)
    (hapart : s'.commits.Pairwise fun c d =>
      ∀ key, lastSet key c.sets ≠ none → lastSet key d.sets ≠ none → d.wv ≤ c.rv)
    (hcovers : Covers s') : Inv s' home := by
  refine ⟨hkeys, fun w hw => ?_, fun w hw => ?_, ?_, hle, hsorted, hapart, hcovers⟩
  · obtain ⟨hl, hne⟩ := (h.live_iff w).mp hw
    have hr := hi.running w hl
    refine ⟨htxns ▸ hr.lt, ?_, ?_, ?_, fun p hp => ?_⟩
    · rw [h.txn w hne]
      exact hr.state
    · rw [h.txn w hne]
      exact hr.wv
    · rw [h.txn w hne]
      exact hr.rv_le.trans h.version
    · rw [h.txn w hne] at hp
      obtain ⟨hb, hv⟩ := hr.writes p hp
      -- a record of `w` is not in the write set of `t`
      have hnot : p.2 ∉ (s.txn t).writes.map Prod.snd := by
        intro hmem
        obtain ⟨q, hq, heq⟩ := List.mem_map.mp hmem
        have hvq := ((hi.running t hlive).writes q hq).2
        rw [heq, hv] at hvq
        exact hne (Ver.owner.inj hvq)
      rw [h.brk, h.record p.2, if_neg hnot]
      exact ⟨hb, hv⟩
  · rw [htxns] at hw
    obtain ⟨h₁, h₂⟩ := hi.fresh w hw
    refine ⟨?_, h.sets ▸ h₂⟩
    rw [h.live]
    by_cases hwt : w = t
    · subst hwt
      exact Function.update_self _ _ _
    · rw [Function.update_of_ne hwt]
      exact h₁
  · rw [h.freed, h.brk]
    exact hi.freed_lt

theorem Inv.abort (hi : Inv s home) {t : ℕ} (ht : s.live t = true) : Inv (txnAbort s t) home := by
  have hrun := hi.running t ht
  have habort : txnAbort s t =
      { detach s (s.txn t).writes .aborted with live := Function.update s.live t false } := by
    rw [txnAbort, if_neg (not_not.mpr hrun.state)]
  have hfields := detach_fields (s := s) (v := .aborted) (s.txn t).writes
  have hends : Ends s (txnAbort s t) t .aborted := by
    rw [habort]
    refine ⟨?_, ?_, ?_, fun u => detach_record _ u, rfl, fun w _ => ?_, ?_, ?_⟩
    all_goals rw [hfields]
  have hcommits : (txnAbort s t).commits = s.commits := by
    rw [habort, hfields]
  have hversion : (txnAbort s t).version = s.version := by
    rw [habort, hfields]
  refine hends.inv hi ?_ (fun key => ?_) ht ?_ ?_ ?_ ?_
  · rw [habort, hfields]
  · obtain ⟨us, e, hk⟩ := hi.keys key
    exact ⟨us, e, hends.keyInv_aborted hk hrun hcommits⟩
  · rw [hcommits, hversion]
    exact hi.commits_le
  · rw [hcommits]
    exact hi.commits_sorted
  · rw [hcommits]
    exact hi.commits_apart
  · refine hi.covers.shrink (by rw [habort, hfields]) fun w hw => ?_
    obtain ⟨hl, hne⟩ := (hends.live_iff w).mp hw
    exact ⟨hl, by rw [hends.txn w hne]⟩

/-! ## txn_commit -/

/-- Transaction `t` with its write version and the state `state`. -/
def decided (s : St) (t : ℕ) (state : State) : St :=
  { s with
    version := s.version + 1
    txn := Function.update s.txn t { s.txn t with wv := s.version + 1, state := state } }

/-- The write set of `t` passes validation. -/
def Passes (s : St) (t : ℕ) (us : ℕ → List ℕ) : Prop :=
  ∀ p ∈ (s.txn t).writes, verdict s.record (s.txn t).rv (us p.1) = .validated

open Classical in
/-- `txn_validate` of a transaction that has just set its state. -/
theorem txnValidate_eq (hi : Inv s home) {t : ℕ} (ht : s.live t = true) {us : ℕ → List ℕ}
    {e : ℕ → Val} (hk : ∀ key, KeyInv s home key (us key) (e key)) :
    txnValidate (s.brk + (s.txn t).writes.length + 3) (s.setState t .validating) t
      = if Passes s t us then .ok (decided s t .validated, .validated)
        else .ok (decided s t .aborted, .aborted) := by
  have hrun := hi.running t ht
  have hdecided : ∀ state, (decided s t .validating).setState t state = decided s t state := by
    intro state
    simp [decided, St.setState]
  -- the others are as they were
  have hothers : ∀ key, OthersRun (decided s t .validating) t (us key) := by
    intro key u hu w hw hne
    have htxn : (decided s t .validating).txn w = s.txn w := Function.update_of_ne hne _ _
    rw [htxn]
    exact (hk key).othersRun hi t u hu w hw hne
  have hrv : ((decided s t .validating).txn t).rv = (s.txn t).rv := by simp [decided]
  have hfuel : s.brk + (s.txn t).writes.length + 1 < s.brk + (s.txn t).writes.length + 2 :=
    Nat.lt_succ_self _
  have hwrites := validateWrites_eq (s := decided s t .validating) (t := t)
    (fun key => (hk key).path) (fun key u hu => ((hk key).alloc u hu).2.1) hothers
    (fun key => (hk key).length_le) hfuel
  rw [hrv] at hwrites
  rw [txnValidate]
  have hstate : ((s.setState t .validating).txn t).state = .validating := by simp [St.setState]
  have hs₁ : (s.setState t .validating).acquireVersion t = decided s t .validating := by
    simp [St.acquireVersion, decided, St.setState, hrun.wv]
  simp only [hstate, hs₁]
  have hws : ((decided s t .validating).txn t).writes = (s.txn t).writes := by simp [decided]
  rw [hws, hwrites]
  by_cases hp : Passes s t us
  · rw [if_pos hp, if_pos (by exact hp)]
    have h₁ : ((decided s t .validating).txn t).state = .validating := by simp [decided]
    simp only [if_pos h₁, hdecided]
    simp [decided]
  · rw [if_neg hp, if_neg (by exact hp)]
    simp only [hdecided]
    have h₁ : ((decided s t .aborted).txn t).state = .aborted := by simp [decided]
    simp [h₁]

open Classical in
/-- What `txn_commit` does. -/
theorem txnCommit_spec (hi : Inv s home) {t : ℕ} (ht : s.live t = true)
    (hfit : Fits s (.commit t)) {us : ℕ → List ℕ} {e : ℕ → Val}
    (hk : ∀ key, KeyInv s home key (us key) (e key)) :
    ∃ s' n, txnCommit s t = .ok (s', if Passes s t us then .validated else .aborted)
      ∧ Ends s s' t (if Passes s t us then .num (s.version + 1) else .aborted)
      ∧ s'.version = s.version + 1 ∧ s'.txns = s.txns
      ∧ s'.commits = (if Passes s t us then
          ⟨t, (s.txn t).rv, s.version + 1, s.sets t⟩ :: s.commits else s.commits)
      ∧ slFind (s.txn t).rv s.active = some n ∧ n ≤ 2
      ∧ s'.active = if n = 1 then slRemove (s.txn t).rv s.active
          else slPut (s.txn t).rv 1 s.active := by
  have hrun := hi.running t ht
  obtain ⟨hnear, hle⟩ := hfit
  obtain ⟨n, hmem⟩ := hi.covers.entry t ht
  have hf := slFind_of_mem hnear hi.covers.sorted hmem
  have hn : n ≤ 2 := hle n hf
  have hrv := hrun.rv_le
  have hne : (s.txn t).rv ≠ s.version + 1 := by omega
  have hlower := lowerCount_eq hi.covers.counts hf hn hne
  have hval := txnValidate_eq hi ht hk
  -- both verdicts go on in the same way
  have hgo : ∀ state v, txnValidate (s.brk + (s.txn t).writes.length + 3)
        (s.setState t .validating) t = .ok (decided s t state, state) →
      v = (if state = .aborted then Ver.aborted else .num (s.version + 1)) →
      ∃ s', txnCommit s t = .ok (s', state) ∧ Ends s s' t v
        ∧ s'.version = s.version + 1 ∧ s'.txns = s.txns
        ∧ s'.commits = (if state = .validated then
            ⟨t, (s.txn t).rv, s.version + 1, s.sets t⟩ :: s.commits else s.commits)
        ∧ s'.active = if n = 1 then slRemove (s.txn t).rv s.active
            else slPut (s.txn t).rv 1 s.active := by
    intro state v hv hver
    have htxn : (decided s t state).txn t
        = { s.txn t with wv := s.version + 1, state := state } := Function.update_self _ _ _
    have hdet := detach_fields (s := decided s t state) (v := v) (s.txn t).writes
    have hcommit : txnCommit s t = .ok
        ({ detach (decided s t state) (s.txn t).writes v with
            active := if n = 1 then slRemove (s.txn t).rv s.active
              else slPut (s.txn t).rv 1 s.active
            live := Function.update s.live t false
            commits := if state = .validated then
              ⟨t, (s.txn t).rv, s.version + 1, s.sets t⟩ :: s.commits else s.commits }, state) := by
      rw [txnCommit, if_neg (not_not.mpr hrun.state), hv]
      simp only [htxn, ← hver]
      have hversion : (detach (decided s t state) (s.txn t).writes v).version = s.version + 1 := by
        rw [hdet]
        rfl
      have hactive : (detach (decided s t state) (s.txn t).writes v).active = s.active := by
        rw [hdet]
        rfl
      have hlive : (detach (decided s t state) (s.txn t).writes v).live = s.live := by
        rw [hdet]
        rfl
      have hsets : (detach (decided s t state) (s.txn t).writes v).sets = s.sets := by
        rw [hdet]
        rfl
      have hcomm : (detach (decided s t state) (s.txn t).writes v).commits = s.commits := by
        rw [hdet]
        rfl
      rw [hversion, hactive, hlower, hlive, hsets, hcomm]
    refine ⟨_, hcommit, ⟨?_, ?_, ?_, fun u => detach_record _ u, rfl, fun w hw => ?_, ?_, ?_⟩,
      ?_, ?_, rfl, rfl⟩
    all_goals simp only
    all_goals rw [hdet]
    all_goals simp only [decided]
    · exact Function.update_of_ne hw _ _
    · exact Nat.le_succ _
  by_cases hp : Passes s t us
  · rw [if_pos hp] at hval
    obtain ⟨s', h₁, h₂, h₃, h₄, h₅, h₆⟩ := hgo .validated _ hval rfl
    refine ⟨s', n, ?_, ?_, h₃, h₄, ?_, hf, hn, h₆⟩
    · rw [if_pos hp]
      exact h₁
    · rw [if_pos hp]
      exact h₂
    · rw [if_pos hp]
      exact h₅
  · rw [if_neg hp] at hval
    obtain ⟨s', h₁, h₂, h₃, h₄, h₅, h₆⟩ := hgo .aborted _ hval rfl
    refine ⟨s', n, ?_, ?_, h₃, h₄, ?_, hf, hn, h₆⟩
    · rw [if_neg hp]
      exact h₁
    · rw [if_neg hp]
      exact h₂
    · rw [if_neg hp]
      exact h₅

theorem Inv.commit (hi : Inv s home) {t : ℕ} (ht : s.live t = true)
    (hfit : Fits s (.commit t)) : ∃ s' state, txnCommit s t = .ok (s', state) ∧ Inv s' home := by
  choose us e hk using hi.keys
  obtain ⟨s', n, hcommit, hends, hversion, htxns, hcommits, hf, hn, hact⟩ :=
    txnCommit_spec hi ht hfit hk
  have hrun := hi.running t ht
  have hcovers : Covers s' :=
    hi.covers.commit ht hfit.1 hf hn hact hends.live_iff hends.txn
  have hold : ∀ c ∈ s.commits, c.wv ≤ s'.version := fun c hc => by
    have := hi.commits_le c hc
    omega
  refine ⟨s', _, hcommit, ?_⟩
  by_cases hp : Passes s t us
  · rw [if_pos hp] at hends hcommits
    -- a key that `t` has set is in its write set, and passed
    have hpass : ∀ key, lastSet key (s.sets t) ≠ none →
        verdict s.record (s.txn t).rv (us key) = .validated := by
      intro key hset
      rw [← (hk key).own t ht] at hset
      have hex : ∃ u ∈ us key, (s.record u).version = .owner t := by
        by_contra hno
        push Not at hno
        exact hset (ownRead_eq_none.mpr hno)
      obtain ⟨u, hu, hv⟩ := hex
      exact hp (key, u) ((hk key).owner u hu t hv).2
    refine hends.inv hi htxns (fun key => ⟨us key, e key, ?_⟩) ht ?_ ?_ ?_ hcovers
    · exact hends.keyInv_committed hi (hk key) ht hversion (hpass key) hcommits
    · rw [hcommits]
      exact List.forall_mem_cons.mpr ⟨hversion.ge, hold⟩
    · rw [hcommits]
      exact List.pairwise_cons.mpr
        ⟨fun c hc => Nat.lt_succ_of_le (hi.commits_le c hc), hi.commits_sorted⟩
    · rw [hcommits]
      refine List.pairwise_cons.mpr ⟨fun c hc key hset hckey => ?_, hi.commits_apart⟩
      -- the first committed version of the list is the greatest, and it passed
      have hv := hpass key hset
      have htop := (hk key).top c hc hckey
      unfold verdict at hv
      cases hfirst : firstNum s.record (us key) with
      | some m =>
        simp only [hfirst] at hv htop
        split_ifs at hv with hm
        exact htop.trans hm
      | none =>
        rw [hfirst] at htop
        exact htop _ (Or.inl ⟨t, ht, rfl⟩)
  · rw [if_neg hp] at hends hcommits
    refine hends.inv hi htxns (fun key => ⟨us key, e key, ?_⟩) ht ?_ ?_ ?_ hcovers
    · exact hends.keyInv_aborted (hk key) hrun hcommits
    · rw [hcommits]
      exact hold
    · rw [hcommits]
      exact hi.commits_sorted
    · rw [hcommits]
      exact hi.commits_apart

/-! ## txn_map_get -/

/-- The records behind record `u` of a list. -/
theorem Path.behind {next : ℕ → Val} {val e : Val} {us : List ℕ} {u : ℕ} (h : Path next val us e)
    (hu : u ∈ us) : ∃ pre us', us = pre ++ u :: us' ∧ Path next (next u) us' e := by
  induction h with
  | dne | lit => cases hu
  | @cons v us e h ih =>
    rcases List.mem_cons.mp hu with rfl | hu
    · exact ⟨[], us, rfl, h⟩
    · obtain ⟨pre, us', rfl, h'⟩ := ih hu
      exact ⟨v :: pre, us', rfl, h'⟩

theorem found_mem {record : ℕ → Update} {rv t u : ℕ} {e : Val} {us : List ℕ} (he : e ≠ .upd u)
    (h : found record rv t e us = .upd u) : u ∈ us := by
  induction us with
  | nil => exact absurd h he
  | cons v us ih =>
    simp only [found] at h
    split at h
    · split_ifs at h
      · cases h
        exact List.mem_cons_self
      · exact List.mem_cons_of_mem _ (ih h)
    · split_ifs at h
      · cases h
        exact List.mem_cons_self
      · exact List.mem_cons_of_mem _ (ih h)
    · exact List.mem_cons_of_mem _ (ih h)

/-- The free loop ends, on a list of records none of which is freed. -/
theorem freeTail_returns {st : St} {fuel n : ℕ} {us : List ℕ} {e : Val}
    (hpath : Path (fun u => (st.record u).next) (.upd n) us e) (hnodup : us.Nodup)
    (hfree : ∀ u ∈ us, u ∉ st.freed) (hfuel : us.length ≤ fuel) :
    ∃ s', freeTail fuel st n = .ok s' := by
  induction us generalizing st fuel n with
  | nil => cases hpath
  | cons v us ih =>
    cases hpath with
    | cons hrest =>
      rw [List.length_cons] at hfuel
      obtain ⟨f, rfl⟩ := Nat.exists_eq_succ_of_ne_zero (n := fuel) (by omega)
      rw [freeTail, read_eq (hfree v List.mem_cons_self)]
      cases hnext : (st.record v).next with
      | dne | lit w =>
        simp only [hnext]
        exact ⟨_, rfl⟩
      | upd m =>
        simp only [hnext]
        rw [hnext] at hrest
        obtain ⟨hn, hnodup⟩ := List.nodup_cons.mp hnodup
        have hlen : us.length ≤ f := by omega
        refine ih ?_ hnodup (fun u hu => ?_) hlen
        · refine hrest.congr fun u hu => ?_
          have hne : u ≠ v := by
            rintro rfl
            exact hn hu
          simp [St.setNext, hne]
        · intro hmem
          rcases List.mem_cons.mp hmem with rfl | hmem
          · exact hn hu
          · exact hfree u (List.mem_cons_of_mem _ hu) hmem

/-- The value of a key in the snapshot of a transaction. -/
def snapshotValue (s : St) (t key : ℕ) : ℕ :=
  ((lastSet key (s.sets t)).or (snapshotRead s.commits (s.txn t).rv key)).getD doesNotExist

theorem KeyInv.getWalk_eq {us : List ℕ} {e : Val} {t key : ℕ} (hi : Inv s home)
    (hk : KeyInv s home key us e) :
    getWalk (s.brk + 2) s t (s.map key) = .ok (s, found s.record (s.txn t).rv t e us) :=
  Txn.getWalk_eq hk.path (fun u hu => (hk.alloc u hu).2.1) (hk.othersRun hi t)
    (by have := hk.length_le; omega)

theorem KeyInv.wordValue_eq {us : List ℕ} {e : Val} {t key : ℕ} (hk : KeyInv s home key us e)
    (ht : s.live t = true) :
    (wordValue s.record (found s.record (s.txn t).rv t e us)).getD doesNotExist
      = snapshotValue s t key := by
  have hfound := wordValue_found (t := t) hk.newer hk.path.end_ne_upd
  rw [hfound, hk.own t ht, hk.reads _ (Or.inl ⟨t, ht, rfl⟩)]
  rfl

/-- The collection never meets a freed record. -/
theorem KeyInv.collect_returns {us : List ℕ} {e : Val} {key u : ℕ} (hk : KeyInv s home key us e)
    (hu : u ∈ us) (newest : Val) : ∃ s', collect s key u newest = .ok s' := by
  have hfree : ∀ v ∈ us, v ∉ s.freed := fun v hv => (hk.alloc v hv).2.1
  have hnodup : us.Nodup := hk.desc.imp fun hlt => hlt.ne'
  obtain ⟨pre, us', rfl, hrest⟩ := hk.path.behind hu
  rw [collect, read_eq (hfree u hu)]
  cases hnext : (s.record u).next with
  | dne | lit v =>
    simp only [hnext]
    split_ifs <;> exact ⟨_, rfl⟩
  | upd n =>
    rw [hnext] at hrest
    have hsub : ∀ v ∈ us', v ∈ pre ++ u :: us' := fun v hv =>
      List.mem_append_right _ (List.mem_cons_of_mem _ hv)
    have hn : n ∈ us' := by
      cases hrest
      exact List.mem_cons_self
    simp only [hnext, read_eq (hfree n (hsub n hn))]
    split_ifs
    · refine freeTail_returns hrest ?_ (fun v hv => hfree v (hsub v hv)) ?_
      · exact (List.nodup_append.mp hnodup).2.1.of_cons
      · have hlen := hk.length_le
        simp only [List.length_append, List.length_cons] at hlen
        omega
    · exact ⟨_, rfl⟩

/-- `txn_map_get` returns the value of the snapshot, whatever it collects. -/
theorem Inv.get_value (hi : Inv s home) {t : ℕ} (ht : s.live t = true) (key : ℕ) :
    ∃ s', txnMapGet s t key = .ok (s', snapshotValue s t key) := by
  obtain ⟨us, e, hk⟩ := hi.keys key
  have hval := hk.wordValue_eq ht
  rw [txnMapGet, if_neg (not_not.mpr (hi.running t ht).state), hk.getWalk_eq hi]
  cases hf : found s.record (s.txn t).rv t e us with
  | dne =>
    rw [hf] at hval
    exact ⟨s, by rw [← hval]; rfl⟩
  | lit v =>
    rw [hf] at hval
    exact ⟨s, by rw [← hval]; rfl⟩
  | upd u =>
    rw [hf] at hval
    obtain ⟨s', hs'⟩ := hk.collect_returns (found_mem (hk.path.end_ne_upd u) hf) (s.map key)
    simp only [hs']
    exact ⟨s', by rw [← hval]; rfl⟩

/-- The merge of the only record of a list into the map. -/
theorem Inv.merge (hi : Inv s home) {key u t : ℕ} {us : List ℕ} {e : Val}
    (hk : KeyInv s home key us e) (ht : s.live t = true) (hmap : s.map key = .upd u)
    (hnext : ∀ n, (s.record u).next ≠ .upd n)
    (hver : (s.record u).version.le (slMinKey s.active) = true) :
    Inv { s with map := Function.update s.map key (.lit (s.record u).value)
                 freed := u :: s.freed } home := by
  have hpath := hk.path
  rw [hmap] at hpath
  -- the list is just `u`
  obtain rfl : us = [u] := by
    cases hpath with
    | cons hrest =>
      cases hn : (s.record u).next with
      | upd n => exact absurd hn (hnext n)
      | dne | lit =>
        rw [hn] at hrest
        cases hrest
        rfl
  obtain ⟨n, hv, hle⟩ : ∃ n, (s.record u).version = .num n ∧ n ≤ slMinKey s.active := by
    cases hv : (s.record u).version with
    | num n =>
      rw [hv] at hver
      exact ⟨n, rfl, by simpa [Ver.le] using hver⟩
    | aborted | owner w =>
      rw [hv] at hver
      cases hver
  -- every reader is past the version of `u`
  have hrel : ∀ r, Relevant s r → n ≤ r := by
    intro r hr
    rcases hr with ⟨w, hw, rfl⟩ | hr
    · exact hle.trans (hi.covers.min_le hw)
    · exact (hle.trans (hi.covers.min_le ht)).trans ((hi.running t ht).rv_le.trans hr)
  refine ⟨fun k => ?_, fun w hw => ?_, hi.fresh, ?_, hi.commits_le, hi.commits_sorted,
    hi.commits_apart, hi.covers.shrink rfl fun _ hw => ⟨hw, rfl⟩⟩
  · by_cases hkk : k = key
    · subst hkk
      refine ⟨[], .lit (s.record u).value, ?_, List.Pairwise.nil, ?_, ?_, List.Pairwise.nil,
        fun r hr => ?_, fun w hw => ?_, fun c hc hl => ?_⟩
      · simp only [Function.update_self]
        exact .lit _
      · simp
      · simp
      · have hreads := hk.reads r hr
        simp only [committedRead, hv, if_pos (hrel r hr)] at hreads
        exact hreads
      · have hown := hk.own w hw
        simp only [ownRead, hv, reduceCtorEq, if_false] at hown
        exact hown
      · have htop := hk.top c hc hl
        simp only [firstNum, hv] at htop
        exact fun r hr => htop.trans (hrel r hr)
    · obtain ⟨us', e', hk'⟩ := hi.keys k
      refine ⟨us', e', hk'.transport (Function.update_of_ne hkk _ _) (fun _ _ => rfl) le_rfl
        (fun v hvm => ?_) (fun _ _ => rfl) (fun w hw => ⟨hw, rfl, fun _ hp => hp⟩) (fun r hr => hr)
        rfl (fun w hw => Or.inl ⟨hw, rfl⟩)⟩
      obtain ⟨_, hfree, hhome⟩ := hk'.alloc v hvm
      intro hmem
      rcases List.mem_cons.mp hmem with rfl | hmem
      · exact hkk (hhome.symm.trans (hk.alloc v List.mem_cons_self).2.2)
      · exact hfree hmem
  · have hr := hi.running w hw
    exact ⟨hr.lt, hr.state, hr.wv, hr.rv_le, hr.writes⟩
  · exact List.forall_mem_cons.mpr ⟨(hk.alloc u List.mem_cons_self).1, hi.freed_lt⟩

/-- A collection that frees nothing keeps the invariant and the history. -/
theorem Inv.collect (hi : Inv s home) {key u t : ℕ} {us : List ℕ} {e : Val} {s' : St}
    (hk : KeyInv s home key us e) (ht : s.live t = true) (hu : u ∈ us)
    (hfit : ¬ Collects s u) (h : collect s key u (s.map key) = .ok s') :
    Inv s' home ∧ s'.commits = s.commits ∧ s'.sets = s.sets ∧ s'.txn = s.txn
      ∧ s'.live = s.live := by
  have hfree : ∀ v ∈ us, v ∉ s.freed := fun v hv => (hk.alloc v hv).2.1
  have hsame : s' = s → Inv s' home ∧ s'.commits = s.commits ∧ s'.sets = s.sets
      ∧ s'.txn = s.txn ∧ s'.live = s.live := by
    rintro rfl
    exact ⟨hi, rfl, rfl, rfl, rfl⟩
  rw [Txn.collect, read_eq (hfree u hu)] at h
  cases hnext : (s.record u).next with
  | upd n =>
    obtain ⟨pre, us', hus, hrest⟩ := hk.path.behind hu
    have hn : n ∈ us := by
      rw [hnext] at hrest
      rw [hus]
      cases hrest
      exact List.mem_append_right _ (List.mem_cons_of_mem _ List.mem_cons_self)
    simp only [hnext, read_eq (hfree n hn)] at h
    split_ifs at h with hlt
    · -- the record has no successor, so the swap stores what was there
      have hdne : (s.record n).next = .dne := by
        by_contra hne
        exact hfit (by simp [Collects, hnext, hlt, hne])
      rw [freeTail, read_eq (hfree n hn)] at h
      simp only [hdne, Except.ok.injEq] at h
      refine hsame (h.symm.trans ?_)
      have hrec : Function.update s.record n { s.record n with next := .dne } = s.record := by
        rw [← hdne]
        exact Function.update_eq_self n s.record
      simp only [St.setNext, hrec]
    · exact hsame (Except.ok.inj h).symm
  | dne | lit v =>
    simp only [hnext] at h
    split_ifs at h with hm hcas
    · cases h
      refine ⟨?_, rfl, rfl, rfl, rfl⟩
      have hmap := hm.1.symm
      have hmerge := hi.merge hk ht hmap (fun n hn => by rw [hnext] at hn; cases hn) hm.2
      simpa only [mapCas, if_pos hmap] using hmerge
    · exact absurd hm.1.symm hcas
    · exact hsame (Except.ok.inj h).symm

theorem Inv.get (hi : Inv s home) {t key : ℕ} (ht : s.live t = true)
    (hfit : Fits s (.get t key)) :
    ∃ s', txnMapGet s t key = .ok (s', snapshotValue s t key) ∧ Inv s' home
      ∧ s'.commits = s.commits ∧ s'.sets = s.sets ∧ s'.txn = s.txn ∧ s'.live = s.live := by
  obtain ⟨s', hs'⟩ := hi.get_value ht key
  refine ⟨s', hs', ?_⟩
  obtain ⟨us, e, hk⟩ := hi.keys key
  rw [txnMapGet, if_neg (not_not.mpr (hi.running t ht).state), hk.getWalk_eq hi] at hs'
  rw [Fits, hk.getWalk_eq hi] at hfit
  cases hf : found s.record (s.txn t).rv t e us with
  | dne | lit v =>
    simp only [hf, Except.ok.injEq, Prod.mk.injEq] at hs'
    rw [← hs'.1]
    exact ⟨hi, rfl, rfl, rfl, rfl⟩
  | upd u =>
    have hu := found_mem (hk.path.end_ne_upd u) hf
    obtain ⟨s₁, hs₁⟩ := hk.collect_returns hu (s.map key)
    simp only [hf] at hfit
    simp only [hf, hs₁, Except.ok.injEq, Prod.mk.injEq] at hs'
    rw [← hs'.1]
    exact hi.collect hk ht hu hfit hs₁

end Calls

/-! ## Whole runs -/

theorem init_inv : Inv init (fun _ => 0) := by
  refine ⟨fun key => ⟨[], .dne, .dne, List.Pairwise.nil, ?_, ?_, List.Pairwise.nil, fun _ _ => rfl,
    ?_, ?_⟩, ?_, fun _ _ => ⟨rfl, rfl⟩, ?_, ?_, List.Pairwise.nil, List.Pairwise.nil,
    ⟨List.Pairwise.nil, ?_, ?_, ?_⟩⟩
  all_goals simp [init, Counts]

/-- One fitting call keeps the invariant. -/
theorem inv_step {s s' : St} {c : Call} (h : ∃ home, Inv s home) (hfit : Fits s c)
    (hstep : step s c = some s') : ∃ home, Inv s' home := by
  obtain ⟨home, hi⟩ := h
  cases c with
  | begin =>
    obtain ⟨s₁, hs₁, hi₁⟩ := hi.begin hfit
    simp only [step, hs₁, Except.toOption, Option.some.injEq] at hstep
    exact ⟨home, hstep ▸ hi₁⟩
  | set t key value =>
    simp only [step] at hstep
    split_ifs at hstep with hl
    cases hstep
    exact ⟨_, hi.set hl.1 key value⟩
  | get t key =>
    simp only [step] at hstep
    split_ifs at hstep with hl
    obtain ⟨s₁, hs₁, hi₁, _⟩ := hi.get hl hfit
    simp only [hs₁, Except.toOption, Option.map_some, Option.some.injEq] at hstep
    exact ⟨home, hstep ▸ hi₁⟩
  | commit t =>
    simp only [step] at hstep
    split_ifs at hstep with hl
    obtain ⟨s₁, state, hs₁, hi₁⟩ := hi.commit hl hfit
    simp only [hs₁, Except.toOption, Option.map_some, Option.some.injEq] at hstep
    exact ⟨home, hstep ▸ hi₁⟩
  | abort t =>
    simp only [step] at hstep
    split_ifs at hstep with hl
    cases hstep
    exact ⟨home, hi.abort hl⟩

theorem inv_run {s : St} {calls : List Call} (hok : StepsMeet step Fits init calls)
    (hrun : run step init calls = some s) : ∃ home, Inv s home :=
  run_invariant (fun _ _ _ h hf hs => inv_step h hf hs) ⟨_, init_inv⟩ hok hrun

/-- A fitting call on a live transaction returns. -/
theorem step_returns {s : St} {home : ℕ → ℕ} (hi : Inv s home) {c : Call} (hfit : Fits s c)
    (hlegal : match c with
      | .begin => True
      | .set t _ value => s.live t = true ∧ 0 < value ∧ value < 2 ^ 62
      | .get t _ | .commit t | .abort t => s.live t = true) :
    ∃ s', step s c = some s' := by
  cases c with
  | begin =>
    obtain ⟨s₁, hs₁, _⟩ := hi.begin hfit
    exact ⟨s₁, by simp [step, hs₁, Except.toOption]⟩
  | set t key value => exact ⟨_, if_pos hlegal⟩
  | get t key =>
    obtain ⟨s₁, hs₁, _⟩ := hi.get hlegal hfit
    exact ⟨s₁, by simp [step, hlegal, hs₁, Except.toOption]⟩
  | commit t =>
    obtain ⟨s₁, state, hs₁, _⟩ := hi.commit hlegal hfit
    exact ⟨s₁, by simp [step, hlegal, hs₁, Except.toOption]⟩
  | abort t => exact ⟨_, if_pos hlegal⟩

/-! ## Snapshot reads -/

section History

variable {commits : List Commit} {r key : ℕ}

/-- The newest commit up to `r` is the one with the greatest write version. -/
theorem snapshotRead_some (h : commits.Pairwise fun c d => d.wv < c.wv) {v : ℕ}
    (hr : snapshotRead commits r key = some v) :
    ∃ c ∈ commits, lastSet key c.sets = some v ∧ c.wv ≤ r
      ∧ ∀ d ∈ commits, lastSet key d.sets ≠ none → d.wv ≤ r → d.wv ≤ c.wv := by
  induction commits with
  | nil => cases hr
  | cons c commits ih =>
    obtain ⟨hlt, h⟩ := List.pairwise_cons.mp h
    rw [snapshotRead, List.findSome?_cons] at hr
    by_cases hc : ∃ w, (if c.wv ≤ r then lastSet key c.sets else none) = some w
    · obtain ⟨w, hw⟩ := hc
      rw [hw] at hr
      cases hr
      split_ifs at hw with hle
      refine ⟨c, List.mem_cons_self, hw, hle, List.forall_mem_cons.mpr ⟨fun _ _ => le_rfl, ?_⟩⟩
      exact fun d hd _ _ => (hlt d hd).le
    · have hnone : (if c.wv ≤ r then lastSet key c.sets else none) = none := by
        by_contra hne
        exact hc (Option.ne_none_iff_exists'.mp hne)
      rw [hnone] at hr
      obtain ⟨d, hd, hset, hle, hmax⟩ := ih h hr
      refine ⟨d, List.mem_cons_of_mem _ hd, hset, hle, List.forall_mem_cons.mpr ⟨?_, hmax⟩⟩
      intro hkey hcr
      rw [if_pos hcr] at hnone
      exact absurd hnone hkey

theorem snapshotRead_none (hr : snapshotRead commits r key = none) :
    ∀ c ∈ commits, lastSet key c.sets ≠ none → r < c.wv := by
  intro c hc hkey
  have hcase := List.findSome?_eq_none_iff.mp hr c hc
  by_contra hle
  rw [if_pos (Nat.not_lt.mp hle)] at hcase
  exact hkey hcase

end History

theorem Inv.snapshot {s : St} {home : ℕ → ℕ} (hi : Inv s home) (t key : ℕ) :
    Snapshot s t key (snapshotValue s t key) := by
  unfold Snapshot snapshotValue
  cases hown : lastSet key (s.sets t) with
  | some v => exact Or.inl rfl
  | none =>
    refine Or.inr ⟨rfl, ?_⟩
    cases hr : snapshotRead s.commits (s.txn t).rv key with
    | some v => exact Or.inl (snapshotRead_some hi.commits_sorted hr)
    | none => exact Or.inr ⟨snapshotRead_none hr, rfl⟩

/-- **Snapshot reads.**  After every run of calls that all fit, `txn_map_get` of a
running transaction reads no freed record and returns the value of its snapshot; and
unless it frees a record itself, it leaves what any running transaction reads for any
key as it was. -/
theorem snapshot_reads (calls : List Call) (s : St) (hok : StepsMeet step Fits init calls)
    (hrun : run step init calls = some s) (t key : ℕ) (ht : s.live t = true) :
    ∃ s' r, txnMapGet s t key = .ok (s', r) ∧ Snapshot s t key r
      ∧ (Fits s (.get t key) → ∀ u k, s.live u = true →
          ∃ s₁ s₂ v, txnMapGet s u k = .ok (s₁, v) ∧ txnMapGet s' u k = .ok (s₂, v)) := by
  obtain ⟨home, hi⟩ := inv_run hok hrun
  obtain ⟨s', hget⟩ := hi.get_value ht key
  refine ⟨s', _, hget, hi.snapshot t key, fun hfit u k hu => ?_⟩
  obtain ⟨s₀, hget₀, hi', hcommits, hsets, htxn, hlive⟩ := hi.get ht hfit
  obtain rfl : s₀ = s' := by
    rw [hget] at hget₀
    exact (Prod.mk.inj (Except.ok.inj hget₀)).1.symm
  obtain ⟨s₁, hs₁⟩ := hi.get_value hu k
  obtain ⟨s₂, hs₂⟩ := hi'.get_value (hlive ▸ hu) k
  refine ⟨s₁, s₂, _, hs₁, ?_⟩
  rw [hs₂]
  simp only [snapshotValue, hcommits, hsets, htxn]

/-- A transaction commits 11 for key 5; then one writer and one reader run. -/
def readerRun : List Call :=
  [.begin, .set 0 5 11, .commit 0, .begin, .begin, .set 1 5 12]

theorem snapshot_reads_behind_a_writer :
    ∃ s, StepsMeet step Fits init readerRun ∧ run step init readerRun = some s
      ∧ ∃ s' r, txnMapGet s 2 5 = .ok (s', r) ∧ Snapshot s 2 5 r
        ∧ ∃ s₁ s₂ v, txnMapGet s 1 5 = .ok (s₁, v) ∧ txnMapGet s' 1 5 = .ok (s₂, v) := by
  have hok : StepsMeet step Fits init readerRun := by decide +kernel
  have h : (run step init readerRun).map
      (fun s => (s.live 1, s.live 2, decide (Fits s (.get 2 5)))) = some (true, true, true) := by
    decide +kernel
  obtain ⟨s, hrun, hf⟩ := Option.map_eq_some_iff.mp h
  simp only [Prod.mk.injEq, decide_eq_true_eq] at hf
  obtain ⟨h1, h2, hfit⟩ := hf
  obtain ⟨s', r, hget, hsnap, hsame⟩ := snapshot_reads readerRun s hok hrun 2 5 h2
  exact ⟨s, hok, hrun, s', r, hget, hsnap, hsame hfit 1 5 h1⟩

/-- Three transactions commit key 5 one after the other; a fourth reads it. -/
def collectRun : List Call :=
  [.begin, .set 0 5 11, .commit 0, .begin, .set 1 5 12, .commit 1, .begin, .set 2 5 13, .commit 2,
    .begin, .get 3 5]

/-- The first read frees the record behind the one it found and leaves the link to it;
the second read of the same transaction follows that link. -/
theorem second_get_reads_freed_record :
    ∃ s, run step init collectRun = some s ∧ s.live 3 = true ∧ s.freed = [1]
      ∧ (s.record 2).next = .upd 1 ∧ txnMapGet s 3 5 = .error .useAfterFree := by
  have h : (run step init collectRun).map
      (fun s => (s.live 3, s.freed, (s.record 2).next,
        match txnMapGet s 3 5 with | .ok _ => none | .error f => some f))
      = some (true, [1], .upd 1, some .useAfterFree) := by decide +kernel
  obtain ⟨s, hrun, hf⟩ := Option.map_eq_some_iff.mp h
  simp only [Prod.mk.injEq] at hf
  obtain ⟨hlive, hfreed, hnext, hget⟩ := hf
  refine ⟨s, hrun, hlive, hfreed, hnext, ?_⟩
  cases hcase : txnMapGet s 3 5 with
  | ok r =>
    rw [hcase] at hget
    cases hget
  | error f =>
    rw [hcase] at hget
    exact congrArg Except.error (Option.some.inj hget)

/-! ## First committer wins -/

/-- **First committer wins.**  After every run of calls that all fit, of two committed
transactions that have set a common key one has committed no later than the other
began. -/
theorem first_committer_wins (calls : List Call) (s : St)
    (hok : StepsMeet step Fits init calls) (hrun : run step init calls = some s) :
    ∀ a ∈ s.commits, ∀ b ∈ s.commits, a.txn ≠ b.txn →
      ∀ key, lastSet key a.sets ≠ none → lastSet key b.sets ≠ none →
        a.wv ≤ b.rv ∨ b.wv ≤ a.rv := by
  obtain ⟨home, hi⟩ := inv_run hok hrun
  let Apart : Commit → Commit → Prop := fun a b => ∀ key, lastSet key a.sets ≠ none →
    lastSet key b.sets ≠ none → a.wv ≤ b.rv ∨ b.wv ≤ a.rv
  have hapart : s.commits.Pairwise Apart :=
    hi.commits_apart.imp fun h key ha hb => Or.inr (h key ha hb)
  have : Std.Symm Apart := ⟨fun x y hxy key hy hx => (hxy key hx hy).symm⟩
  intro a ha b hb hne
  refine hapart.forall ha hb ?_
  rintro rfl
  exact hne rfl

/-- Two transactions commit key 5 one after the other, a third one fails. -/
def writersRun : List Call :=
  [.begin, .set 0 5 11, .commit 0, .begin, .begin, .set 1 5 12, .set 2 5 13, .commit 1, .commit 2]

theorem first_committer_wins_three_writers :
    ∃ s a b, StepsMeet step Fits init writersRun ∧ run step init writersRun = some s
      ∧ s.commits = [b, a] ∧ a.txn = 0 ∧ b.txn = 1 ∧ (a.wv ≤ b.rv ∨ b.wv ≤ a.rv) := by
  have hok : StepsMeet step Fits init writersRun := by decide +kernel
  have h : (run step init writersRun).map (fun s => s.commits)
      = some [⟨1, 2, 3, [(5, 12)]⟩, ⟨0, 1, 2, [(5, 11)]⟩] := by decide +kernel
  obtain ⟨s, hrun, hcommits⟩ := Option.map_eq_some_iff.mp h
  have hwins := first_committer_wins writersRun s hok hrun
  rw [hcommits] at hwins
  exact ⟨s, ⟨0, 1, 2, [(5, 11)]⟩, ⟨1, 2, 3, [(5, 12)]⟩, hok, hrun, hcommits, rfl, rfl,
    hwins _ (by simp) _ (by simp) (by decide) 5 (by decide) (by decide)⟩

/-- Three transactions begin at version 1.  The second sets key 5 and commits; a fourth
one reads the key; then the first sets it and commits. -/
def lostUpdateRun : List Call :=
  [.begin, .begin, .begin, .set 1 5 11, .commit 1, .begin, .get 3 5, .set 0 5 12, .commit 0]

/-- The commit of the second transaction removes the entry of version 1 from `active_`,
so the read merges its record into the map, where the first one does not see the
conflict. -/
theorem overlapping_writers_both_commit :
    ∃ s a b, run step init lostUpdateRun = some s ∧ a ∈ s.commits ∧ b ∈ s.commits
      ∧ a.txn ≠ b.txn ∧ lastSet 5 a.sets ≠ none ∧ lastSet 5 b.sets ≠ none
      ∧ ¬ (a.wv ≤ b.rv ∨ b.wv ≤ a.rv) := by
  have h : (run step init lostUpdateRun).map (fun s => s.commits)
      = some [⟨0, 1, 3, [(5, 12)]⟩, ⟨1, 1, 2, [(5, 11)]⟩] := by decide +kernel
  obtain ⟨s, hrun, hcommits⟩ := Option.map_eq_some_iff.mp h
  refine ⟨s, ⟨0, 1, 3, [(5, 12)]⟩, ⟨1, 1, 2, [(5, 11)]⟩, hrun, ?_, ?_, by decide, by decide,
    by decide, by decide⟩
  · rw [hcommits]
    simp
  · rw [hcommits]
    simp

end Txn
