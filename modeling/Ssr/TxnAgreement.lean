/-
# The verdict on a transaction

Owner and helpers validate a transaction at the same time and store what they find
without looking at what is there.  Where every step fits (`Fits`) they all find the
same, and the verdict, once stored, stays:

* a transaction is *beaten* at a write version when a committed transaction that shares
  a key with it took its version after the one began, and below that write version;
* whoever finds `TXN_ABORTED` has met such a transaction, and whoever finds
  `TXN_VALIDATED` has passed every record of every key: the maker of each of them is
  running still, has failed, or whatever write version it has or can get is outside the
  interval between the read and the write version, or it is itself beaten at it;
* so a validated transaction is never beaten, and a failed one always is.

What lies behind the first committed record of a list need not be looked at: it was
pushed before that record, so its maker is beaten by it, or too old to matter.
-/
import Ssr.TxnSteps

open Interleaving Map Txn

namespace TxnSteps

/-! ## Conflicts -/

section Conflicts

variable (s : Shared)

/-- Two transactions have set a common key. -/
def Shares (x y : ℕ) : Prop :=
  ∃ k u v, u ∈ s.hist k ∧ v ∈ s.hist k ∧ s.author u = x ∧ s.author v = y

/-- Transaction `x` could not commit at write version `w`. -/
def Beaten (x w : ℕ) : Prop :=
  ∃ y, y ≠ x ∧ s.state y = .validated ∧ Shares s x y ∧ s.rv x < s.wv y ∧ s.wv y < w

/-- A write version that `y` has, or may still get. -/
def Possible (y w : ℕ) : Prop :=
  (s.wv y = undeterminedVersion ∧ s.since y < w) ∨ (s.wv y ≠ undeterminedVersion ∧ s.wv y = w)

/-- Whatever becomes of `y`, it does not stand in the way of `x`. -/
def Harmless (x y : ℕ) : Prop :=
  y = x ∨ s.state y = .running ∨ s.state y = .aborted
    ∨ ∀ w, Possible s y w → w ≤ s.rv x ∨ s.wv x ≤ w ∨ Beaten s y w

/-- Nothing that was set for key `k` stands in the way of `x`. -/
def Passed (x k : ℕ) : Prop := ∀ u ∈ s.hist k, Harmless s x (s.author u)

/-- Every key of `x` is passed. -/
def KeysPassed (x : ℕ) : Prop := ∀ p ∈ s.writes x, Passed s x p.1

end Conflicts

/-! ## The invariant -/

/-- The shared part of the invariant. -/
structure Inv (s : Shared) : Prop where
  hist_lt : ∀ k, ∀ u ∈ s.hist k, u < s.brk
  author_born : ∀ k, ∀ u ∈ s.hist k, s.author u ∈ s.born
  rv_le : ∀ x ∈ s.born, s.rv x ≤ s.counts.version
  wv_le : ∀ x, s.wv x ≤ s.counts.version
  since_le : ∀ x, s.since x ≤ s.counts.version
  wv_started : ∀ x, s.wv x ≠ undeterminedVersion → s.state x ≠ .running ∧ s.since x < s.wv x
  decided_wv : ∀ x, s.Decided x → s.wv x ≠ undeterminedVersion
  decided_born : ∀ x, s.Decided x → x ∈ s.born
  writes_iff : ∀ x p, p ∈ s.writes x ↔ p.2 ∈ s.hist p.1 ∧ s.author p.2 = x
  map_hist : ∀ k, (∃ u post, s.map k = .upd u ∧ s.hist k = u :: post)
    ∨ ((∀ u, s.map k ≠ .upd u) ∧ ∀ u ∈ s.hist k, u ∈ s.merged)
  next_hist : ∀ k pre u post, s.hist k = pre ++ u :: post →
    (∃ v post', (s.record u).next = .upd v ∧ post = v :: post')
      ∨ ((∀ v, (s.record u).next ≠ .upd v) ∧ ∀ v ∈ post, v ∈ s.merged)
  merged_num : ∀ u ∈ s.merged, ∃ k n, u ∈ s.hist k ∧ (s.record u).version = .num n
    ∧ ∀ x ∈ s.born, ¬ s.Decided x → n ≤ s.rv x
  num_validated : ∀ k, ∀ u ∈ s.hist k, ∀ n, (s.record u).version = .num n →
    s.state (s.author u) = .validated ∧ s.wv (s.author u) = n
  aborted_author : ∀ k, ∀ u ∈ s.hist k, (s.record u).version = .aborted →
    s.state (s.author u) = .running ∨ s.state (s.author u) = .aborted
  owner_author : ∀ k, ∀ u ∈ s.hist k, ∀ w, (s.record u).version = .owner w → s.author u = w
  order : ∀ k pre u post, s.hist k = pre ++ u :: post → ∀ v ∈ post,
    s.state (s.author u) ≠ .running → s.rv (s.author v) ≤ s.since (s.author u)
  passed : ∀ x, s.state x = .validated → KeysPassed s x
  sound : ∀ x, s.state x = .validated → ¬ Beaten s x (s.wv x)
  beaten : ∀ x, s.state x = .aborted → Beaten s x (s.wv x)
  verdicts : ∀ p ∈ s.verdicts, s.Decided p.1 ∧ s.state p.1 = p.2

/-- How the shared state grows. -/
structure Grows (s s' : Shared) : Prop where
  version : s.counts.version ≤ s'.counts.version
  brk : s.brk ≤ s'.brk
  born : ∀ x ∈ s.born, x ∈ s'.born ∧ s'.rv x = s.rv x
  started : ∀ x, s.state x ≠ .running →
    s'.state x ≠ .running ∧ s'.since x = s.since x ∧ s'.writes x = s.writes x
  decided : ∀ x, s.Decided x → s'.state x = s.state x
  wv_keep : ∀ x, s.wv x ≠ undeterminedVersion → s'.wv x = s.wv x
  wv_new : ∀ x, s.wv x = undeterminedVersion → s'.wv x ≠ undeterminedVersion →
    s.state x ≠ .running ∧ s.since x < s'.wv x
  start : ∀ x, s.state x = .running → s'.state x ≠ .running → s.counts.version ≤ s'.since x
  hist : ∀ k, ∃ new, s'.hist k = new ++ s.hist k ∧ ∀ u ∈ new, s'.state (s'.author u) = .running
  author : ∀ u, u < s.brk → s'.author u = s.author u
  next : ∀ k, ∀ u ∈ s.hist k, (s'.record u).next = (s.record u).next
  num : ∀ k, ∀ u ∈ s.hist k, ∀ n, (s.record u).version = .num n → (s'.record u).version = .num n

/-- What thread `t` relies on besides: nobody else touches its transaction. -/
structure Mine (t : ℕ) (s s' : Shared) : Prop where
  born : t ∉ s.born → t ∉ s'.born
  state : s.state t = .running → s'.state t = .running
  writes : s.state t = .running → s'.writes t = s.writes t
  record : ∀ u, u < s.brk → s.author u = t → s'.record u = s.record u
  hist : ∀ k, ∀ u ∈ s'.hist k, s'.author u = t → u ∈ s.hist k

/-- What thread `t` relies on. -/
def Rely (t : ℕ) (s s' : Shared) : Prop := Grows s s' ∧ Mine t s s'

/-- Nothing has changed. -/
theorem Grows.refl (s : Shared) : Grows s s :=
  ⟨le_rfl, le_rfl, fun _ h => ⟨h, rfl⟩, fun _ h => ⟨h, rfl, rfl⟩, fun _ _ => rfl, fun _ _ => rfl,
    fun _ h h' => absurd h h', fun _ h h' => absurd h h',
    fun _ => ⟨[], rfl, fun _ h => absurd h List.not_mem_nil⟩, fun _ _ => rfl, fun _ _ _ => rfl,
    fun _ _ _ _ h => h⟩

/-- Nothing has changed for `t`. -/
theorem Mine.refl (t : ℕ) (s : Shared) : Mine t s s :=
  ⟨id, id, fun _ => rfl, fun _ _ _ => rfl, fun _ _ h _ => h⟩

/-- No step is no matter to anybody. -/
theorem Rely.refl (t : ℕ) (s : Shared) : Rely t s s := ⟨Grows.refl s, Mine.refl t s⟩

/-! ## What stays true -/

section Stable

variable {s s' : Shared}

/-- A record stays in its list. -/
theorem Grows.mem_hist (h : Grows s s') {k u : ℕ} (hu : u ∈ s.hist k) : u ∈ s'.hist k := by
  obtain ⟨new, heq, _⟩ := h.hist k
  rw [heq]
  exact List.mem_append_right _ hu

/-- A decided transaction stays decided. -/
theorem Grows.decided_keep (h : Grows s s') {x : ℕ} (hx : s.Decided x) : s'.Decided x := by
  unfold Shared.Decided
  rw [h.decided x hx]
  exact hx

/-- Two transactions that share a key still do. -/
theorem Shares.mono (hi : Inv s) (h : Grows s s') {x y : ℕ} (hs : Shares s x y) :
    Shares s' x y := by
  obtain ⟨k, u, v, hu, hv, hx, hy⟩ := hs
  refine ⟨k, u, v, h.mem_hist hu, h.mem_hist hv, ?_, ?_⟩
  · rw [h.author u (hi.hist_lt k u hu)]
    exact hx
  · rw [h.author v (hi.hist_lt k v hv)]
    exact hy

/-- A transaction that was beaten stays so. -/
theorem Beaten.mono (hi : Inv s) (h : Grows s s') {x w : ℕ} (hx : x ∈ s.born)
    (hb : Beaten s x w) : Beaten s' x w := by
  obtain ⟨y, hne, hst, hsh, hlt, hlt'⟩ := hb
  have hwv := h.wv_keep y (hi.decided_wv y (Or.inl hst))
  refine ⟨y, hne, ?_, hsh.mono hi h, ?_, ?_⟩
  · rw [h.decided y (Or.inl hst)]
    exact hst
  · rw [(h.born x hx).2, hwv]
    exact hlt
  · rw [hwv]
    exact hlt'

/-- Harmless once, harmless forever: a transaction that starts later gets a greater
version, and one that gets its version gets a possible one. -/
theorem Harmless.mono (hi : Inv s) (h : Grows s s') {x y : ℕ} (hx : x ∈ s.born)
    (hwx : s.wv x ≠ undeterminedVersion) (hy : y ∈ s.born) (hh : Harmless s x y) :
    Harmless s' x y := by
  by_cases hrun : s.state y = .running
  · by_cases hrun' : s'.state y = .running
    · exact Or.inr (Or.inl hrun')
    · -- `y` has just started
      have hwy : s.wv y = undeterminedVersion := by
        by_contra hne
        exact (hi.wv_started y hne).1 hrun
      have hwy' : s'.wv y = undeterminedVersion := by
        by_contra hne
        exact (h.wv_new y hwy hne).1 hrun
      refine Or.inr (Or.inr (Or.inr fun w hw => Or.inr (Or.inl ?_)))
      rcases hw with ⟨_, hlt⟩ | ⟨hne, _⟩
      · rw [h.wv_keep x hwx]
        exact (hi.wv_le x).trans ((h.start y hrun hrun').trans hlt.le)
      · exact absurd hwy' hne
  · rcases hh with heq | hr | ha | hall
    · exact Or.inl heq
    · exact absurd hr hrun
    · refine Or.inr (Or.inr (Or.inl ?_))
      rw [h.decided y (Or.inr ha)]
      exact ha
    · refine Or.inr (Or.inr (Or.inr fun w hw => ?_))
      have hposs : Possible s y w := by
        obtain ⟨_, hsince, _⟩ := h.started y hrun
        by_cases hwy : s.wv y = undeterminedVersion
        · rcases hw with ⟨_, hlt⟩ | ⟨hne, rfl⟩
          · exact Or.inl ⟨hwy, hsince ▸ hlt⟩
          · exact Or.inl ⟨hwy, (h.wv_new y hwy hne).2⟩
        · have hkeep := h.wv_keep y hwy
          rcases hw with ⟨h0, _⟩ | ⟨_, rfl⟩
          · rw [hkeep] at h0
            exact absurd h0 hwy
          · exact Or.inr ⟨hwy, hkeep.symm⟩
      rw [(h.born x hx).2, h.wv_keep x hwx]
      rcases hall w hposs with h₁ | h₂ | h₃
      · exact Or.inl h₁
      · exact Or.inr (Or.inl h₂)
      · exact Or.inr (Or.inr (h₃.mono hi h hy))

/-- A key that was passed stays so. -/
theorem Passed.mono (hi : Inv s) (h : Grows s s') {x k : ℕ} (hx : x ∈ s.born)
    (hwx : s.wv x ≠ undeterminedVersion) (hp : Passed s x k) : Passed s' x k := by
  intro u hu
  obtain ⟨new, heq, hnew⟩ := h.hist k
  rw [heq] at hu
  rcases List.mem_append.mp hu with hu | hu
  · exact Or.inr (Or.inl (hnew u hu))
  · rw [h.author u (hi.hist_lt k u hu)]
    exact (hp u hu).mono hi h hx hwx (hi.author_born k u hu)

/-- So do all keys. -/
theorem KeysPassed.mono (hi : Inv s) (h : Grows s s') {x : ℕ} (hx : x ∈ s.born)
    (hst : s.state x ≠ .running) (hwx : s.wv x ≠ undeterminedVersion) (hp : KeysPassed s x) :
    KeysPassed s' x := by
  intro p hpm
  rw [(h.started x hst).2.2] at hpm
  exact (hp p hpm).mono hi h hx hwx

end Stable

/-! ## Where a thread stands -/

section Local

variable (s : Shared)

/-- Transaction `x` is being validated, or was. -/
def Started (x : ℕ) : Prop := x ∈ s.born ∧ s.state x ≠ .running

/-- Moreover it has its write version. -/
def Versioned (x : ℕ) : Prop := Started s x ∧ s.wv x ≠ undeterminedVersion

/-- The first `i` keys are passed, unless the verdict is there. -/
def Upto (x i : ℕ) : Prop := s.Decided x ∨ ∀ j, j < i → Passed s x (s.keyAt x j)

/-- `validate_key` is at record `u` of the `i`-th key. -/
def At (x i u : ℕ) : Prop :=
  Versioned s x ∧ i < (s.writes x).length ∧ Upto s x i
    ∧ ∃ pre post, s.hist (s.keyAt x i) = pre ++ u :: post ∧ ∀ v ∈ pre, Harmless s x (s.author v)

/-- What `txn_validate(x)` knows, by stage. -/
def StageOk (x : ℕ) : Stage → Prop
  | .switch | .needVersion | .add => Started s x
  | .setVersion w => Started s x ∧ s.since x < w ∧ w ≤ s.counts.version
  | .mapGet i => Versioned s x ∧ i < (s.writes x).length ∧ Upto s x i
  | .tag i u | .aborted i u | .writer i u => At s x i u
  | .writerState i u w => At s x i u ∧ s.author u = w ∧ w ≠ x
  | .writerVersion i u w => At s x i u ∧ s.author u = w ∧ w ≠ x ∧ s.state w ≠ .running
  | .compare i u w => At s x i u ∧ s.author u = w ∧ w ≠ x ∧ s.state w = .validated
  | .storeAborted => Versioned s x ∧ Beaten s x (s.wv x)
  | .check => Versioned s x ∧ (s.Decided x ∨ KeysPassed s x)
  | .storeValidated => Versioned s x ∧ KeysPassed s x
  | .ret => Versioned s x ∧ s.Decided x

/-- The transaction of thread `t` is running and owns its records. -/
def Ready (t : ℕ) : Prop :=
  t ∈ s.born ∧ s.state t = .running
    ∧ ∀ k, ∀ u ∈ s.hist k, s.author u = t → (s.record u).version = .owner t

/-- What the suspended callers of a `txn_validate(x)` of thread `t` know. -/
def StackOk (t : ℕ) : ℕ → List Frame → Prop
  | _, [] => False
  | x, .key y i u w :: stack =>
    w = x ∧ At s y i u ∧ s.author u = w ∧ w ≠ y ∧ StackOk t y stack
  | x, .get key u w _ :: _ => w = x ∧ u ∈ s.hist key ∧ Ready s t
  | x, .commit :: _ => x = t

/-- The counting loop of `txn_begin`. -/
def Beginning : Active.Pc → Prop
  | .beginVersion | .beginCas _ _ | .beginCheck _ | .undoCas _ _ => True
  | _ => False

/-- The counting loop of `txn_commit`. -/
def Ending : Active.Pc → Prop
  | .commitCas _ _ | .commitVersion _ _ | .commitRemove _ => True
  | _ => False

/-- The local part of the invariant, by program counter. -/
def Local (t : ℕ) : Pc → Prop
  | .unborn => t ∉ s.born ∧ s.state t = .running
  | .begin p => t ∉ s.born ∧ s.state t = .running ∧ Beginning p
  | .ready | .setGet _ _ | .commitState => Ready s t
  | .setCas _ _ u _ =>
    Ready s t ∧ u < s.brk ∧ s.author u = t ∧ (∀ k, u ∉ s.hist k)
      ∧ (s.record u).version = .owner t
  | .validate x stack q => StageOk s x q ∧ StackOk s t x stack
  | .commitVerdict => Versioned s t ∧ s.Decided t
  | .commitVersion => Versioned s t ∧ s.state t = .validated
  | .detach v ws =>
    Versioned s t ∧ (∀ p ∈ ws, p ∈ s.writes t)
      ∧ ((v = .aborted ∧ s.state t = .aborted) ∨ (v = .num (s.wv t) ∧ s.state t = .validated))
  | .count p => Ending p
  | .abort ws => t ∈ s.born ∧ s.state t = .running ∧ ∀ p ∈ ws, p ∈ s.writes t
  | .getMap _ | .collectMin _ _ | .collectVersion _ _ | .collectFree _ => Ready s t
  | .getTag key u _ | .getAborted key u _ | .getWriter key u _ => Ready s t ∧ u ∈ s.hist key
  | .getState key u w _ => Ready s t ∧ u ∈ s.hist key ∧ w ∈ s.born
  | .getVersion key u w _ | .getCompare key u w _ =>
    Ready s t ∧ u ∈ s.hist key ∧ w ∈ s.born ∧ s.state w ≠ .running
  | .mergeMin key u | .mergeVersion key u _ =>
    Ready s t ∧ u ∈ s.hist key ∧ ∀ v, (s.record u).next ≠ .upd v
  | .mergeCas key u =>
    Ready s t ∧ u ∈ s.hist key ∧ (∀ v, (s.record u).next ≠ .upd v)
      ∧ ∃ n, (s.record u).version = .num n
  | .finished | .fault => True

end Local

section LocalStable

variable {s s' : Shared} {t x i u : ℕ}

/-- A validation that has started has started. -/
theorem Started.mono (h : Grows s s') (hx : Started s x) : Started s' x :=
  ⟨(h.born x hx.1).1, (h.started x hx.2).1⟩

/-- A version that was taken stays. -/
theorem Versioned.mono (h : Grows s s') (hx : Versioned s x) : Versioned s' x := by
  refine ⟨hx.1.mono h, ?_⟩
  rw [h.wv_keep x hx.2]
  exact hx.2

/-- The write set of a validation is fixed. -/
theorem keyAt_eq (h : Grows s s') (hx : Started s x) (j : ℕ) : s'.keyAt x j = s.keyAt x j := by
  unfold Shared.keyAt
  rw [(h.started x hx.2).2.2]

/-- What was passed up to a key stays. -/
theorem Upto.mono (hi : Inv s) (h : Grows s s') (hx : Versioned s x) (hu : Upto s x i) :
    Upto s' x i := by
  rcases hu with hd | hp
  · exact Or.inl (h.decided_keep hd)
  · refine Or.inr fun j hj => ?_
    rw [keyAt_eq h hx.1]
    exact (hp j hj).mono hi h hx.1.1 hx.2

/-- A record that is looked at stays where it is. -/
theorem At.mono (hi : Inv s) (h : Grows s s') (ha : At s x i u) : At s' x i u := by
  obtain ⟨hx, hlt, hup, pre, post, heq, hpre⟩ := ha
  refine ⟨hx.mono h, ?_, hup.mono hi h hx, ?_⟩
  · rw [(h.started x hx.1.2).2.2]
    exact hlt
  · obtain ⟨new, hnew, hrun⟩ := h.hist (s.keyAt x i)
    refine ⟨new ++ pre, post, ?_, fun v hv => ?_⟩
    · rw [keyAt_eq h hx.1, hnew, heq, List.append_assoc]
    · rcases List.mem_append.mp hv with hv | hv
      · exact Or.inr (Or.inl (hrun v hv))
      · have hmem : v ∈ s.hist (s.keyAt x i) := by
          rw [heq]
          exact List.mem_append_left _ hv
        rw [h.author v (hi.hist_lt _ v hmem)]
        exact (hpre v hv).mono hi h hx.1.1 hx.2 (hi.author_born _ v hmem)

/-- The record that `validate_key` is at. -/
theorem At.mem_hist (ha : At s x i u) : u ∈ s.hist (s.keyAt x i) := by
  obtain ⟨_, _, _, pre, post, heq, _⟩ := ha
  rw [heq]
  exact List.mem_append_right _ List.mem_cons_self

/-- Its author stays. -/
theorem At.author_eq (hi : Inv s) (h : Grows s s') (ha : At s x i u) : s'.author u = s.author u :=
  h.author u (hi.hist_lt _ u ha.mem_hist)

/-- **What a stage of `txn_validate` rests on** stays. -/
theorem StageOk.mono (hi : Inv s) (h : Grows s s') {q : Stage} (hq : StageOk s x q) :
    StageOk s' x q := by
  have hbeaten : Versioned s x → Beaten s x (s.wv x) → Beaten s' x (s'.wv x) := by
    intro hx hb
    rw [h.wv_keep x hx.2]
    exact hb.mono hi h hx.1.1
  cases q with
  | switch | needVersion | add => exact Started.mono h hq
  | setVersion w =>
    obtain ⟨hx, hlt, hle⟩ := hq
    refine ⟨hx.mono h, ?_, hle.trans h.version⟩
    rw [(h.started x hx.2).2.1]
    exact hlt
  | mapGet i =>
    obtain ⟨hx, hlt, hup⟩ := hq
    refine ⟨hx.mono h, ?_, hup.mono hi h hx⟩
    rw [(h.started x hx.1.2).2.2]
    exact hlt
  | tag i u | aborted i u | writer i u => exact At.mono hi h hq
  | writerState i u w =>
    obtain ⟨ha, hw, hne⟩ := hq
    exact ⟨ha.mono hi h, (ha.author_eq hi h).trans hw, hne⟩
  | writerVersion i u w =>
    obtain ⟨ha, hw, hne, hst⟩ := hq
    exact ⟨ha.mono hi h, (ha.author_eq hi h).trans hw, hne, (h.started w hst).1⟩
  | compare i u w =>
    obtain ⟨ha, hw, hne, hst⟩ := hq
    exact ⟨ha.mono hi h, (ha.author_eq hi h).trans hw, hne,
      (h.decided w (Or.inl hst)).trans hst⟩
  | storeAborted => exact ⟨hq.1.mono h, hbeaten hq.1 hq.2⟩
  | check =>
    refine ⟨hq.1.mono h, hq.2.imp h.decided_keep fun hp => ?_⟩
    exact hp.mono hi h hq.1.1.1 hq.1.1.2 hq.1.2
  | storeValidated => exact ⟨hq.1.mono h, hq.2.mono hi h hq.1.1.1 hq.1.1.2 hq.1.2⟩
  | ret => exact ⟨hq.1.mono h, h.decided_keep hq.2⟩

/-- A transaction stays ready for its next call. -/
theorem Ready.stable (hi : Inv s) (h : Rely t s s') (hr : Ready s t) : Ready s' t := by
  obtain ⟨hb, hst, hown⟩ := hr
  refine ⟨(h.1.born t hb).1, h.2.state hst, fun k u hu ha => ?_⟩
  have hold := h.2.hist k u hu ha
  have hlt := hi.hist_lt k u hold
  rw [h.1.author u hlt] at ha
  rw [h.2.record u hlt ha]
  exact hown k u hold ha

/-- What the callers of a validation rest on is stable. -/
theorem StackOk.stable (hi : Inv s) (h : Rely t s s') {stack : List Frame}
    (hst : StackOk s t x stack) : StackOk s' t x stack := by
  induction stack generalizing x with
  | nil => exact hst
  | cons f stack ih =>
    cases f with
    | key y i u w =>
      obtain ⟨hw, ha, hau, hne, hrest⟩ := hst
      exact ⟨hw, ha.mono hi h.1, (ha.author_eq hi h.1).trans hau, hne, ih hrest⟩
    | get key u w newest =>
      obtain ⟨hw, hu, hr⟩ := hst
      exact ⟨hw, h.1.mem_hist hu, hr.stable hi h⟩
    | commit => exact hst

/-- **What a thread rests on** is stable. -/
theorem Local.stable (hi : Inv s) (h : Rely t s s') {pc : Pc} (hl : Local s t pc) :
    Local s' t pc := by
  cases pc with
  | unborn => exact ⟨h.2.born hl.1, h.2.state hl.2⟩
  | begin p => exact ⟨h.2.born hl.1, h.2.state hl.2.1, hl.2.2⟩
  | ready | setGet | commitState => exact Ready.stable hi h hl
  | setCas key value u old =>
    obtain ⟨hr, hlt, ha, hnot, hv⟩ := hl
    have ha' : s'.author u = t := (h.1.author u hlt).trans ha
    refine ⟨hr.stable hi h, hlt.trans_le h.1.brk, ha', fun k hu => ?_, ?_⟩
    · exact hnot k (h.2.hist k u hu ha')
    · rw [h.2.record u hlt ha]
      exact hv
  | validate x stack q => exact ⟨hl.1.mono hi h.1, hl.2.stable hi h⟩
  | commitVerdict => exact ⟨hl.1.mono h.1, h.1.decided_keep hl.2⟩
  | commitVersion => exact ⟨hl.1.mono h.1, (h.1.decided t (Or.inl hl.2)).trans hl.2⟩
  | detach v ws =>
    obtain ⟨hx, hws, hv⟩ := hl
    refine ⟨hx.mono h.1, ?_, ?_⟩
    · rw [(h.1.started t hx.1.2).2.2]
      exact hws
    · rcases hv with ⟨hv, hst⟩ | ⟨hv, hst⟩
      · exact Or.inl ⟨hv, (h.1.decided t (Or.inr hst)).trans hst⟩
      · refine Or.inr ⟨?_, (h.1.decided t (Or.inl hst)).trans hst⟩
        rw [h.1.wv_keep t hx.2]
        exact hv
  | count p => exact hl
  | abort ws =>
    obtain ⟨hb, hst, hws⟩ := hl
    refine ⟨(h.1.born t hb).1, h.2.state hst, ?_⟩
    rw [h.2.writes hst]
    exact hws
  | getMap | collectMin | collectVersion | collectFree => exact Ready.stable hi h hl
  | getTag key u newest | getAborted key u newest | getWriter key u newest =>
    exact ⟨hl.1.stable hi h, h.1.mem_hist hl.2⟩
  | getState key u w newest =>
    exact ⟨hl.1.stable hi h, h.1.mem_hist hl.2.1, (h.1.born w hl.2.2).1⟩
  | getVersion key u w newest | getCompare key u w newest =>
    obtain ⟨hr, hu, hw, hst⟩ := hl
    exact ⟨hr.stable hi h, h.1.mem_hist hu, (h.1.born w hw).1, (h.1.started w hst).1⟩
  | mergeMin key u | mergeVersion key u min =>
    obtain ⟨hr, hu, hn⟩ := hl
    refine ⟨hr.stable hi h, h.1.mem_hist hu, fun v => ?_⟩
    rw [h.1.next key u hu]
    exact hn v
  | mergeCas key u =>
    obtain ⟨hr, hu, hn, n, hv⟩ := hl
    refine ⟨hr.stable hi h, h.1.mem_hist hu, fun v => ?_, n, h.1.num key u hu n hv⟩
    rw [h.1.next key u hu]
    exact hn v
  | finished | fault => trivial

end LocalStable

/-! ## One lemma per shared update -/

section Updates

variable {s s' : Shared} {t : ℕ}

/-- Records of transactions that have started are old records. -/
theorem Grows.shares_old (hi : Inv s) (h : Grows s s') {x y : ℕ} (hx : s'.state x ≠ .running)
    (hy : s'.state y ≠ .running) (hs : Shares s' x y) : Shares s x y := by
  obtain ⟨k, u, v, hu, hv, rfl, rfl⟩ := hs
  obtain ⟨new, heq, hnew⟩ := h.hist k
  have hold : ∀ w ∈ s'.hist k, s'.state (s'.author w) ≠ .running → w ∈ s.hist k := by
    intro w hw hst
    rw [heq] at hw
    rcases List.mem_append.mp hw with hw | hw
    · exact absurd (hnew w hw) hst
    · exact hw
  have hu' := hold u hu hx
  have hv' := hold v hv hy
  exact ⟨k, u, v, hu', hv', (h.author u (hi.hist_lt k u hu')).symm,
    (h.author v (hi.hist_lt k v hv')).symm⟩

/-- The verdicts stay sound when no new one comes. -/
theorem Inv.verdicts_keep (hi : Inv s) (h : Grows s s')
    (hval : ∀ x, s'.state x = .validated → s.state x = .validated)
    (hab : ∀ x, s'.state x = .aborted → s.state x = .aborted) :
    (∀ x, s'.state x = .validated → KeysPassed s' x)
      ∧ (∀ x, s'.state x = .validated → ¬ Beaten s' x (s'.wv x))
      ∧ ∀ x, s'.state x = .aborted → Beaten s' x (s'.wv x) := by
  refine ⟨fun x hx => ?_, fun x hx hb => ?_, fun x hx => ?_⟩
  · have hx := hval x hx
    have hd : s.Decided x := Or.inl hx
    exact (hi.passed x hx).mono hi h (hi.decided_born x hd) (by rw [hx]; decide)
      (hi.decided_wv x hd)
  · have hxs := hval x hx
    have hd : s.Decided x := Or.inl hxs
    refine hi.sound x hxs ?_
    obtain ⟨y, hne, hy, hsh, hlt, hlt'⟩ := hb
    have hys := hval y hy
    have hwy := h.wv_keep y (hi.decided_wv y (Or.inl hys))
    rw [hwy, (h.born x (hi.decided_born x hd)).2] at hlt
    rw [hwy, h.wv_keep x (hi.decided_wv x hd)] at hlt'
    refine ⟨y, hne, hys, h.shares_old hi ?_ ?_ hsh, hlt, hlt'⟩
    · rw [hx]
      decide
    · rw [hy]
      decide
  · have hxs := hab x hx
    have hd : s.Decided x := Or.inr hxs
    rw [h.wv_keep x (hi.decided_wv x hd)]
    exact (hi.beaten x hxs).mono hi h (hi.decided_born x hd)

/-- Asking for a verdict keeps the invariant. -/
theorem Inv.consult (hi : Inv s) (x : ℕ) : Inv (s.consult x) := by
  unfold Shared.consult
  split_ifs with hx
  · refine ⟨hi.hist_lt, hi.author_born, hi.rv_le, hi.wv_le, hi.since_le, hi.wv_started, hi.decided_wv,
      hi.decided_born, hi.writes_iff, hi.map_hist, hi.next_hist, hi.merged_num, hi.num_validated,
      hi.aborted_author, hi.owner_author, hi.order, hi.passed, hi.sound, hi.beaten, ?_⟩
    exact List.forall_mem_cons.mpr ⟨⟨hx, rfl⟩, hi.verdicts⟩
  · exact hi

/-- It is no matter to anybody. -/
theorem Rely.consult (t : ℕ) (s : Shared) (x : ℕ) : Rely t s (s.consult x) := by
  unfold Shared.consult
  split_ifs
  · have hg := Grows.refl s
    have hm := Mine.refl t s
    exact ⟨⟨hg.version, hg.brk, hg.born, hg.started, hg.decided, hg.wv_keep, hg.wv_new, hg.start,
      hg.hist, hg.author, hg.next, hg.num⟩, hm.born, hm.state, hm.writes, hm.record, hm.hist⟩
  · exact Rely.refl t s

/-- The counters move on. -/
theorem Inv.counts (hi : Inv s) {c : Active.Shared} (hv : s.counts.version ≤ c.version) :
    Inv { s with counts := c } :=
  ⟨hi.hist_lt, hi.author_born, fun x hx => (hi.rv_le x hx).trans hv,
    fun x => (hi.wv_le x).trans hv, fun x => (hi.since_le x).trans hv, hi.wv_started, hi.decided_wv, hi.decided_born, hi.writes_iff,
    hi.map_hist, hi.next_hist, hi.merged_num, hi.num_validated, hi.aborted_author,
    hi.owner_author, hi.order, hi.passed, hi.sound, hi.beaten, hi.verdicts⟩

/-- A step on `active_` is no matter to anybody. -/
theorem Rely.counts (t : ℕ) (s : Shared) {c : Active.Shared} (hv : s.counts.version ≤ c.version) :
    Rely t s { s with counts := c } := by
  have hg := Grows.refl s
  have hm := Mine.refl t s
  exact ⟨⟨hv, hg.brk, hg.born, hg.started, hg.decided, hg.wv_keep, hg.wv_new, hg.start,
    hg.hist, hg.author, hg.next, hg.num⟩, hm.born, hm.state, hm.writes, hm.record, hm.hist⟩

/-- `txn_begin` returns. -/
theorem Rely.begin (u : ℕ) {counts : Active.Shared} (hv : counts.version = s.counts.version)
    (rv : ℕ) (ht : t ∉ s.born) (hu : u ≠ t) :
    Rely u s { s with counts := counts, rv := Function.update s.rv t rv, born := t :: s.born } := by
  have hg := Grows.refl s
  have hm := Mine.refl u s
  refine ⟨⟨hv.ge, hg.brk, fun x hx => ⟨List.mem_cons_of_mem _ hx, ?_⟩, hg.started, hg.decided,
    hg.wv_keep, hg.wv_new, hg.start, hg.hist, hg.author, hg.next, hg.num⟩, ?_, hm.state,
    hm.writes, hm.record, hm.hist⟩
  · refine Function.update_of_ne ?_ _ _
    rintro rfl
    exact ht hx
  · intro hnot hmem
    exact (List.mem_cons.mp hmem).elim hu hnot

/-- A transaction begins. -/
theorem Inv.begin (hi : Inv s) {counts : Active.Shared}
    (hv : counts.version = s.counts.version) (ht : t ∉ s.born) :
    Inv { s with
      counts := counts
      rv := Function.update s.rv t s.counts.version
      born := t :: s.born } := by
  have hg := (Rely.begin (t + 1) hv s.counts.version ht (Nat.succ_ne_self t)).1
  have hrv : ∀ x ∈ s.born, Function.update s.rv t s.counts.version x = s.rv x := fun x hx =>
    (hg.born x hx).2
  obtain ⟨h₁, h₂, h₃⟩ := hi.verdicts_keep hg (fun _ h => h) fun _ h => h
  refine ⟨hi.hist_lt, fun k u hu => List.mem_cons_of_mem _ (hi.author_born k u hu), ?_, ?_, ?_,
    hi.wv_started, hi.decided_wv, fun x hx => List.mem_cons_of_mem _ (hi.decided_born x hx),
    hi.writes_iff, hi.map_hist, hi.next_hist, fun u hu => ?_, hi.num_validated,
    hi.aborted_author, hi.owner_author, ?_, h₁, h₂, h₃, hi.verdicts⟩
  · refine List.forall_mem_cons.mpr ⟨?_, fun x hx => ?_⟩
    · simp [hv]
    · simp only [hrv x hx, hv]
      exact hi.rv_le x hx
  · intro x
    simp only [hv]
    exact hi.wv_le x
  · intro x
    simp only [hv]
    exact hi.since_le x
  · obtain ⟨k, n, hk, hn, hall⟩ := hi.merged_num u hu
    refine ⟨k, n, hk, hn, List.forall_mem_cons.mpr ⟨fun _ => ?_, fun x hx hd => ?_⟩⟩
    · simp only [Function.update_self]
      rw [← (hi.num_validated k u hk n hn).2]
      exact hi.wv_le _
    · simp only [hrv x hx]
      exact hall x hx hd
  · intro k pre u post heq v hvm hst
    have hmem : v ∈ s.hist k := by
      rw [show s.hist k = pre ++ u :: post from heq]
      exact List.mem_append_right _ (List.mem_cons_of_mem _ hvm)
    simp only [hrv _ (hi.author_born k v hmem)]
    exact hi.order k pre u post heq v hvm hst

/-- `txn_commit` starts: the write version to come is above the present one. -/
theorem Rely.setValidating {u : ℕ} (ht : s.state t = .running) (hu : u ≠ t) :
    Rely u s (s.setValidating t) := by
  have hg := Grows.refl s
  have hm := Mine.refl u s
  have hst : ∀ x, x ≠ t → (s.setValidating t).state x = s.state x := fun x hx =>
    Function.update_of_ne hx _ _
  have hsince : ∀ x, x ≠ t → (s.setValidating t).since x = s.since x := fun x hx =>
    Function.update_of_ne hx _ _
  refine ⟨⟨le_rfl, le_rfl, hg.born, fun x hx => ?_, fun x hx => ?_, hg.wv_keep, hg.wv_new,
    fun x hx hx' => ?_, fun _ => ⟨[], rfl, fun _ h => absurd h List.not_mem_nil⟩, hg.author,
    hg.next, hg.num⟩, hm.born, fun h => ?_, fun _ => rfl, hm.record, hm.hist⟩
  · have hxt : x ≠ t := by
      rintro rfl
      exact hx ht
    rw [hst x hxt, hsince x hxt]
    exact ⟨hx, rfl, rfl⟩
  · refine hst x ?_
    rintro rfl
    rcases hx with h | h <;> rw [ht] at h <;> cases h
  · by_cases hxt : x = t
    · subst hxt
      have hself : (s.setValidating x).since x = s.counts.version := Function.update_self _ _ _
      exact hself.ge
    · rw [hst x hxt] at hx'
      exact absurd hx hx'
  · rw [hst u hu]
    exact h

/-- A transaction becomes `TXN_VALIDATING`. -/
theorem Inv.setValidating (hi : Inv s) (hr : Ready s t) : Inv (s.setValidating t) := by
  obtain ⟨hb, hrun, hown⟩ := hr
  have hg := (Rely.setValidating (u := t + 1) hrun (Nat.succ_ne_self t)).1
  have hst : ∀ x, x ≠ t → (s.setValidating t).state x = s.state x := fun x hx =>
    Function.update_of_ne hx _ _
  have hself : (s.setValidating t).state t = .validating := Function.update_self _ _ _
  have hback : ∀ x st, st ≠ .validating → (s.setValidating t).state x = st → s.state x = st := by
    intro x st hne hx
    by_cases hxt : x = t
    · subst hxt
      rw [hself] at hx
      exact absurd hx.symm hne
    · rw [hst x hxt] at hx
      exact hx
  have hdec : ∀ x, (s.setValidating t).Decided x ↔ s.Decided x := by
    intro x
    by_cases hxt : x = t
    · subst hxt
      simp [Shared.Decided, hself, hrun]
    · simp only [Shared.Decided, hst x hxt]
  obtain ⟨h₁, h₂, h₃⟩ := hi.verdicts_keep hg (fun x hx => hback x _ (by decide) hx)
    fun x hx => hback x _ (by decide) hx
  refine ⟨hi.hist_lt, hi.author_born, hi.rv_le, hi.wv_le, fun x => ?_, fun x hx => ?_,
    fun x hx => hi.decided_wv x ((hdec x).mp hx), fun x hx => hi.decided_born x ((hdec x).mp hx),
    hi.writes_iff, hi.map_hist, hi.next_hist, fun u hu => ?_, fun k u hu n hn => ?_,
    fun k u hu hab => ?_, hi.owner_author, fun k pre u post heq v hv hs => ?_, h₁, h₂, h₃,
    fun p hp => ?_⟩
  · by_cases hxt : x = t
    · subst hxt
      exact (show (s.setValidating x).since x = s.counts.version from
        Function.update_self _ _ _).le
    · rw [show (s.setValidating t).since x = s.since x from Function.update_of_ne hxt _ _]
      exact hi.since_le x
  · obtain ⟨hne, hlt⟩ := hi.wv_started x hx
    have hxt : x ≠ t := by
      rintro rfl
      exact hne hrun
    rw [hst x hxt]
    exact ⟨hne, by rw [show (s.setValidating t).since x = s.since x from
      Function.update_of_ne hxt _ _]; exact hlt⟩
  · obtain ⟨k, n, hk, hn, hall⟩ := hi.merged_num u hu
    exact ⟨k, n, hk, hn, fun x hx hd => hall x hx fun h => hd ((hdec x).mpr h)⟩
  · obtain ⟨hv, hw⟩ := hi.num_validated k u hu n hn
    have hne : s.author u ≠ t := by
      intro h
      rw [h, hrun] at hv
      cases hv
    exact ⟨(hst _ hne).trans hv, hw⟩
  · have hne : s.author u ≠ t := by
      intro h
      have hab' : (s.record u).version = .aborted := hab
      rw [hown k u hu h] at hab'
      cases hab'
    exact (hi.aborted_author k u hu hab).imp (hst _ hne).trans (hst _ hne).trans
  · have hmem : v ∈ s.hist k := by
      rw [show s.hist k = pre ++ u :: post from heq]
      exact List.mem_append_right _ (List.mem_cons_of_mem _ hv)
    show s.rv (s.author v) ≤ (s.setValidating t).since (s.author u)
    by_cases hut : s.author u = t
    · rw [hut, show (s.setValidating t).since t = s.counts.version from
        Function.update_self _ _ _]
      exact hi.rv_le _ (hi.author_born k v hmem)
    · rw [show (s.setValidating t).since (s.author u) = s.since (s.author u) from
        Function.update_of_ne hut _ _]
      refine hi.order k pre u post heq v hv ?_
      rw [← hst _ hut]
      exact hs
  · obtain ⟨hd, heq⟩ := hi.verdicts p hp
    refine ⟨(hdec p.1).mpr hd, ?_⟩
    rw [hg.decided p.1 hd]
    exact heq

/-- A transaction gets its write version. -/
theorem Rely.setWv (u : ℕ) {x w : ℕ} (hx : Started s x) (h0 : s.wv x = undeterminedVersion)
    (hlt : s.since x < w) : Rely u s { s with wv := Function.update s.wv x w } := by
  have hg := Grows.refl s
  have hm := Mine.refl u s
  have hother : ∀ y, y ≠ x → Function.update s.wv x w y = s.wv y := fun y hy =>
    Function.update_of_ne hy _ _
  refine ⟨⟨le_rfl, le_rfl, hg.born, hg.started, hg.decided, fun y hy => ?_, fun y hy hy' => ?_,
    hg.start, hg.hist, hg.author, hg.next, hg.num⟩, hm.born, hm.state, hm.writes, hm.record,
    hm.hist⟩
  · refine hother y ?_
    rintro rfl
    exact hy h0
  · by_cases hyx : y = x
    · subst hyx
      refine ⟨hx.2, ?_⟩
      simp only [Function.update_self]
      exact hlt
    · simp only [hother y hyx] at hy'
      exact absurd hy hy'

/-- A transaction takes its version. -/
theorem Inv.setWv (hi : Inv s) {x w : ℕ} (hx : Started s x) (h0 : s.wv x = undeterminedVersion)
    (hlt : s.since x < w) (hle : w ≤ s.counts.version) :
    Inv { s with wv := Function.update s.wv x w } := by
  have hg := (Rely.setWv 0 hx h0 hlt).1
  have hw0 : w ≠ undeterminedVersion := (Nat.zero_le _).trans_lt hlt |>.ne'
  have hself : Function.update s.wv x w x = w := Function.update_self _ _ _
  have hother : ∀ y, y ≠ x → Function.update s.wv x w y = s.wv y := fun y hy =>
    Function.update_of_ne hy _ _
  obtain ⟨h₁, h₂, h₃⟩ := hi.verdicts_keep hg (fun _ h => h) fun _ h => h
  refine ⟨hi.hist_lt, hi.author_born, hi.rv_le, fun y => ?_, hi.since_le, fun y hy => ?_,
    fun y hy => ?_, hi.decided_born, hi.writes_iff, hi.map_hist, hi.next_hist, hi.merged_num,
    fun k u hu n hn => ?_, hi.aborted_author, hi.owner_author, hi.order, h₁, h₂, h₃, hi.verdicts⟩
  · by_cases hyx : y = x
    · subst hyx
      simp only [hself]
      exact hle
    · simp only [hother y hyx]
      exact hi.wv_le y
  · by_cases hyx : y = x
    · subst hyx
      simp only [hself]
      exact ⟨hx.2, hlt⟩
    · simp only [hother y hyx] at hy ⊢
      exact hi.wv_started y hy
  · by_cases hyx : y = x
    · subst hyx
      simp only [hself]
      exact hw0
    · simp only [hother y hyx]
      exact hi.decided_wv y hy
  · obtain ⟨hv, hw⟩ := hi.num_validated k u hu n hn
    refine ⟨hv, ?_⟩
    have hne : s.author u ≠ x := by
      intro h
      exact hi.decided_wv _ (Or.inl hv) (h ▸ h0)
    simp only [hother _ hne]
    exact hw

/-- A verdict is stored where there was none. -/
theorem Rely.setState (u : ℕ) {x : ℕ} {st : State} (hx : s.state x = .validating)
    (hst : st ≠ .running) : Rely u s (s.setState x st) := by
  have hg := Grows.refl s
  have hm := Mine.refl u s
  have hother : ∀ y, y ≠ x → (s.setState x st).state y = s.state y := fun y hy =>
    Function.update_of_ne hy _ _
  have hself : (s.setState x st).state x = st := Function.update_self _ _ _
  have hrun : ∀ y, s.state y = .running → y ≠ x := by
    rintro y hy rfl
    rw [hx] at hy
    cases hy
  refine ⟨⟨le_rfl, le_rfl, hg.born, fun y hy => ⟨?_, rfl, rfl⟩, fun y hy => ?_, hg.wv_keep,
    hg.wv_new, fun y hy hy' => ?_, fun _ => ⟨[], rfl, fun _ h => absurd h List.not_mem_nil⟩,
    hg.author, hg.next, hg.num⟩, hm.born, fun h => ?_, fun _ => rfl, hm.record, hm.hist⟩
  · by_cases hyx : y = x
    · subst hyx
      rw [hself]
      exact hst
    · rw [hother y hyx]
      exact hy
  · refine hother y ?_
    rintro rfl
    rcases hy with h | h <;> rw [hx] at h <;> cases h
  · rw [hother y (hrun y hy)] at hy'
    exact absurd hy hy'
  · rw [hother u (hrun u h)]
    exact h

/-- The facts that do not depend on which verdict is stored. -/
theorem Inv.setState_of (hi : Inv s) {x : ℕ} {st : State} (hx : s.state x = .validating)
    (hst : st = .validated ∨ st = .aborted) (hv : Versioned s x)
    (h₁ : ∀ y, (s.setState x st).state y = .validated → KeysPassed (s.setState x st) y)
    (h₂ : ∀ y, (s.setState x st).state y = .validated →
      ¬ Beaten (s.setState x st) y (s.wv y))
    (h₃ : ∀ y, (s.setState x st).state y = .aborted → Beaten (s.setState x st) y (s.wv y)) :
    Inv (s.setState x st) := by
  have hrun : st ≠ .running := by rcases hst with rfl | rfl <;> decide
  have hg := (Rely.setState 0 hx hrun).1
  have hother : ∀ y, y ≠ x → (s.setState x st).state y = s.state y := fun y hy =>
    Function.update_of_ne hy _ _
  have hself : (s.setState x st).state x = st := Function.update_self _ _ _
  have hne : ∀ k, ∀ u ∈ s.hist k, (s.record u).version = .aborted ∨
      (∃ n, (s.record u).version = .num n) → s.author u ≠ x := by
    intro k u hu hv' heq
    rcases hv' with hab | ⟨n, hn⟩
    · rcases hi.aborted_author k u hu hab with h | h <;> rw [heq, hx] at h <;> cases h
    · have h := (hi.num_validated k u hu n hn).1
      rw [heq, hx] at h
      cases h
  refine ⟨hi.hist_lt, hi.author_born, hi.rv_le, hi.wv_le, hi.since_le, fun y hy => ?_,
    fun y hy => ?_, fun y hy => ?_, hi.writes_iff, hi.map_hist, hi.next_hist, fun u hu => ?_,
    fun k u hu n hn => ?_, fun k u hu hab => ?_, hi.owner_author,
    fun k pre u post heq v hvm hs => ?_, h₁, h₂, h₃, fun p hp => ?_⟩
  · obtain ⟨hy', hlt⟩ := hi.wv_started y hy
    exact ⟨(hg.started y hy').1, hlt⟩
  · by_cases hyx : y = x
    · subst hyx
      exact hv.2
    · unfold Shared.Decided at hy
      rw [hother y hyx] at hy
      exact hi.decided_wv y hy
  · by_cases hyx : y = x
    · subst hyx
      exact hv.1.1
    · unfold Shared.Decided at hy
      rw [hother y hyx] at hy
      exact hi.decided_born y hy
  · obtain ⟨k, n, hk, hn, hall⟩ := hi.merged_num u hu
    exact ⟨k, n, hk, hn, fun y hy hd => hall y hy fun h => hd (hg.decided_keep h)⟩
  · obtain ⟨hval, hw⟩ := hi.num_validated k u hu n hn
    exact ⟨(hother _ (hne k u hu (Or.inr ⟨n, hn⟩))).trans hval, hw⟩
  · have hau := hother _ (hne k u hu (Or.inl hab))
    exact (hi.aborted_author k u hu hab).imp hau.trans hau.trans
  · by_cases hux : s.author u = x
    · refine hi.order k pre u post heq v hvm ?_
      rw [hux, hx]
      decide
    · refine hi.order k pre u post heq v hvm ?_
      rw [← hother _ hux]
      exact hs
  · obtain ⟨hd, heq⟩ := hi.verdicts p hp
    exact ⟨hg.decided_keep hd, (hg.decided p.1 hd).trans heq⟩

/-- A transaction that passed every key is not beaten. -/
theorem Inv.not_beaten_of_passed (hi : Inv s) {x : ℕ} (hp : KeysPassed s x)
    (hsound : ∀ y, y ≠ x → s.state y = .validated → ¬ Beaten s y (s.wv y)) :
    ¬ Beaten s x (s.wv x) := by
  rintro ⟨y, hne, hy, ⟨k, u, v, hu, hv, hau, hav⟩, hlt, hlt'⟩
  have hmem : (k, u) ∈ s.writes x := (hi.writes_iff x (k, u)).mpr ⟨hu, hau⟩
  have hh := hp (k, u) hmem v hv
  rw [hav] at hh
  rcases hh with h | h | h | h
  · exact hne h
  · rw [hy] at h
    cases h
  · rw [hy] at h
    cases h
  · have hwy := hi.decided_wv y (Or.inl hy)
    rcases h (s.wv y) (Or.inr ⟨hwy, rfl⟩) with h | h | h
    · exact absurd hlt (Nat.not_lt.mpr h)
    · exact absurd hlt' (Nat.not_lt.mpr h)
    · exact hsound y hne hy h

/-- `TXN_VALIDATED` is stored by one who has passed every key. -/
theorem Inv.storeValidated (hi : Inv s) {x : ℕ} (hx : s.state x = .validating)
    (hv : Versioned s x) (hp : KeysPassed s x) : Inv (s.setState x .validated) := by
  have hrun : State.validated ≠ .running := by decide
  have hg := (Rely.setState 0 hx hrun).1
  have hother : ∀ y, y ≠ x → (s.setState x .validated).state y = s.state y := fun y hy =>
    Function.update_of_ne hy _ _
  have hsound : ∀ y, y ≠ x → s.state y = .validated → ¬ Beaten s y (s.wv y) := fun y _ hy =>
    hi.sound y hy
  have hnot : ¬ Beaten s x (s.wv x) := hi.not_beaten_of_passed hp hsound
  have hpassed : ∀ y, (s.setState x .validated).state y = .validated →
      KeysPassed s y ∧ y ∈ s.born ∧ s.state y ≠ .running ∧ s.wv y ≠ undeterminedVersion
        ∧ ¬ Beaten s y (s.wv y) := by
    intro y hy
    by_cases hyx : y = x
    · subst hyx
      exact ⟨hp, hv.1.1, hv.1.2, hv.2, hnot⟩
    · rw [hother y hyx] at hy
      have hd : s.Decided y := Or.inl hy
      exact ⟨hi.passed y hy, hi.decided_born y hd, by rw [hy]; decide,
        hi.decided_wv y hd, hi.sound y hy⟩
  refine hi.setState_of hx (Or.inl rfl) hv (fun y hy => ?_) (fun y hy => ?_) (fun y hy => ?_)
  · obtain ⟨h₁, h₂, h₃, h₄, _⟩ := hpassed y hy
    exact h₁.mono hi hg h₂ h₃ h₄
  · -- nobody who has passed every key is beaten by `x` either
    rintro ⟨z, hne, hz, ⟨k, u, v, hu, hvh, hau, hav⟩, hlt, hlt'⟩
    obtain ⟨hky, _, _, _, hby⟩ := hpassed y hy
    obtain ⟨_, _, hrz, hwz, hbz⟩ := hpassed z hz
    have hmem : (k, u) ∈ s.writes y := (hi.writes_iff y (k, u)).mpr ⟨hu, hau⟩
    have hh := hky (k, u) hmem v hvh
    rw [show s.author v = z from hav] at hh
    rcases hh with h | h | h | h
    · exact hne h
    · exact hrz h
    · by_cases hzx : z = x
      · rw [hzx, hx] at h
        cases h
      · rw [hother z hzx, h] at hz
        cases hz
    · rcases h (s.wv z) (Or.inr ⟨hwz, rfl⟩) with h | h | h
      · exact absurd hlt (Nat.not_lt.mpr h)
      · exact absurd hlt' (Nat.not_lt.mpr h)
      · exact hbz h
  · have hyx : y ≠ x := by
      rintro rfl
      rw [show (s.setState y .validated).state y = .validated from Function.update_self _ _ _] at hy
      cases hy
    rw [hother y hyx] at hy
    exact (hi.beaten y hy).mono hi hg (hi.decided_born y (Or.inr hy))

/-- `TXN_ABORTED` is stored by one who has met a conflict. -/
theorem Inv.storeAborted (hi : Inv s) {x : ℕ} (hx : s.state x = .validating)
    (hv : Versioned s x) (hb : Beaten s x (s.wv x)) : Inv (s.setState x .aborted) := by
  have hrun : State.aborted ≠ .running := by decide
  have hg := (Rely.setState 0 hx hrun).1
  have hother : ∀ y, y ≠ x → (s.setState x .aborted).state y = s.state y := fun y hy =>
    Function.update_of_ne hy _ _
  have hval : ∀ y, (s.setState x .aborted).state y = .validated → s.state y = .validated := by
    intro y hy
    have hyx : y ≠ x := by
      rintro rfl
      rw [show (s.setState y .aborted).state y = .aborted from Function.update_self _ _ _] at hy
      cases hy
    rw [hother y hyx] at hy
    exact hy
  refine hi.setState_of hx (Or.inr rfl) hv (fun y hy => ?_) (fun y hy => ?_) (fun y hy => ?_)
  · have hy := hval y hy
    have hd : s.Decided y := Or.inl hy
    exact (hi.passed y hy).mono hi hg (hi.decided_born y hd)
      (by rw [hy]; decide) (hi.decided_wv y hd)
  · rintro ⟨z, hne, hz, hsh, hlt, hlt'⟩
    exact hi.sound y (hval y hy) ⟨z, hne, hval z hz, hsh, hlt, hlt'⟩
  · by_cases hyx : y = x
    · subst hyx
      exact hb.mono hi hg hv.1.1
    · rw [hother y hyx] at hy
      exact (hi.beaten y hy).mono hi hg (hi.decided_born y (Or.inr hy))

/-- Records that are in no list. -/
structure Outside (s s' : Shared) : Prop where
  same : s' = { s with record := s'.record, author := s'.author, brk := s'.brk }
  brk : s.brk ≤ s'.brk
  author : ∀ u, u < s.brk → s'.author u = s.author u
  record : ∀ k, ∀ u ∈ s.hist k, s'.record u = s.record u

/-- A store outside the lists changes none of them. -/
theorem Outside.grows (h : Outside s s') : Grows s s' := by
  have hg := Grows.refl s
  have hb := h.brk
  have ha := h.author
  have hr := h.record
  rw [h.same] at hb ha hr ⊢
  exact ⟨le_rfl, hb, hg.born, hg.started, hg.decided, hg.wv_keep, hg.wv_new, hg.start,
    fun _ => ⟨[], rfl, fun _ h => absurd h List.not_mem_nil⟩, ha,
    fun k u hu => congrArg Update.next (hr k u hu),
    fun k u hu n hn => (congrArg Update.version (hr k u hu)).trans hn⟩

/-- It keeps the invariant. -/
theorem Outside.inv (h : Outside s s') (hi : Inv s) : Inv s' := by
  have hg := h.grows
  have hr := h.record
  have hb := h.brk
  have ha : ∀ k, ∀ u ∈ s.hist k, s'.author u = s.author u := fun k u hu =>
    h.author u (hi.hist_lt k u hu)
  have hsame := h.same
  obtain ⟨h₁, h₂, h₃⟩ := hi.verdicts_keep hg (by rw [hsame]; exact fun _ h => h)
    (by rw [hsame]; exact fun _ h => h)
  rw [hsame] at hr hb ha h₁ h₂ h₃ ⊢
  simp only at hr hb ha
  refine ⟨fun k u hu => (hi.hist_lt k u hu).trans_le hb, fun k u hu => ?_, hi.rv_le, hi.wv_le, hi.since_le,
    hi.wv_started, hi.decided_wv, hi.decided_born, fun x p => ?_, hi.map_hist,
    fun k pre u post heq => ?_, fun u hu => ?_, fun k u hu n hn => ?_, fun k u hu hab => ?_,
    fun k u hu w hw => ?_, fun k pre u post heq v hv hst => ?_, h₁, h₂, h₃, hi.verdicts⟩
  · simp only [ha k u hu]
    exact hi.author_born k u hu
  · rw [hi.writes_iff]
    constructor
    · rintro ⟨hp, hx⟩
      exact ⟨hp, (ha _ _ hp).trans hx⟩
    · rintro ⟨hp, hx⟩
      exact ⟨hp, (ha _ _ hp).symm.trans hx⟩
  · have hu : u ∈ s.hist k := by
      rw [show s.hist k = pre ++ u :: post from heq]
      exact List.mem_append_right _ List.mem_cons_self
    simp only [hr k u hu]
    exact hi.next_hist k pre u post heq
  · obtain ⟨k, n, hk, hn, hall⟩ := hi.merged_num u hu
    refine ⟨k, n, hk, ?_, hall⟩
    simp only [hr k u hk]
    exact hn
  · simp only [hr k u hu] at hn
    simp only [ha k u hu]
    exact hi.num_validated k u hu n hn
  · simp only [hr k u hu] at hab
    simp only [ha k u hu]
    exact hi.aborted_author k u hu hab
  · simp only [hr k u hu] at hw
    exact (ha k u hu).trans (hi.owner_author k u hu w hw)
  · have hu : u ∈ s.hist k := by
      rw [show s.hist k = pre ++ u :: post from heq]
      exact List.mem_append_right _ List.mem_cons_self
    have hvm : v ∈ s.hist k := by
      rw [show s.hist k = pre ++ u :: post from heq]
      exact List.mem_append_right _ (List.mem_cons_of_mem _ hv)
    simp only [ha k u hu, ha k v hvm] at hst ⊢
    exact hi.order k pre u post heq v hv hst

/-- It is no matter to others than the author. -/
theorem Outside.mine (h : Outside s s') {u : ℕ}
    (hrec : ∀ r, r < s.brk → s.author r = u → s'.record r = s.record r) : Mine u s s' := by
  have hsame := h.same
  refine ⟨?_, ?_, ?_, hrec, ?_⟩
  all_goals rw [hsame]
  · exact id
  · exact id
  · exact fun _ => rfl
  · exact fun _ _ hu _ => hu

/-- A change outside the lists, and then another change. -/
theorem Outside.trans_rely {s₁ s₂ : Shared} {v : ℕ} (h : Outside s s₁) (hm : Mine v s s₁)
    (hr : Rely v s₁ s₂) : Rely v s s₂ := by
  obtain ⟨hg, hm₂⟩ := hr
  have hb := h.brk
  have ha := h.author
  have hrec := h.record
  have hmine := hm.record
  rw [h.same] at hg hm₂
  refine ⟨⟨hg.version, hb.trans hg.brk, hg.born, hg.started, hg.decided, hg.wv_keep, hg.wv_new,
    hg.start, hg.hist, fun u hu => ?_, fun k u hu => ?_, fun k u hu n hn => ?_⟩, hm₂.born,
    hm₂.state, hm₂.writes, fun u hu hau => ?_, hm₂.hist⟩
  · exact (hg.author u (hu.trans_le hb)).trans (ha u hu)
  · exact (hg.next k u hu).trans (congrArg Update.next (hrec k u hu))
  · exact hg.num k u hu n ((congrArg Update.version (hrec k u hu)).trans hn)
  · exact (hm₂.record u (hu.trans_le hb) ((ha u hu).trans hau)).trans (hmine u hu hau)

/-- A new record is outside the lists. -/
theorem Outside.alloc (hi : Inv s) (value : ℕ) : Outside s (s.alloc t value) :=
  ⟨rfl, Nat.le_succ _, fun _ hu => Function.update_of_ne hu.ne _ _,
    fun k u hu => Function.update_of_ne (hi.hist_lt k u hu).ne _ _⟩

/-- So is a record that was not pushed. -/
theorem Outside.setNext {u : ℕ} (hu : ∀ k, u ∉ s.hist k) (v : Val) : Outside s (s.setNext u v) := by
  refine ⟨rfl, le_rfl, fun _ _ => rfl, fun k w hw => Function.update_of_ne ?_ _ _⟩
  rintro rfl
  exact hu k hw

/-- A record is pushed in front of the list of its key. -/
theorem Rely.push {u v key : ℕ} (ht : s.state t = .running) (hau : s.author u = t) (hv : v ≠ t) :
    Rely v s (s.push t key u) := by
  have hg := Grows.refl s
  have hm := Mine.refl v s
  refine ⟨⟨le_rfl, le_rfl, hg.born, fun x hx => ⟨hx, rfl, ?_⟩, hg.decided, hg.wv_keep, hg.wv_new,
    hg.start, fun k => ?_, hg.author, fun _ _ _ => rfl, fun _ _ _ _ h => h⟩, hm.born, hm.state,
    fun _ => ?_, hm.record, fun k w hw hav => ?_⟩
  · refine Function.update_of_ne ?_ _ _
    rintro rfl
    exact hx ht
  · by_cases hk : k = key
    · subst hk
      refine ⟨[u], Function.update_self _ _ _, fun w hw => ?_⟩
      rw [List.mem_singleton] at hw
      subst hw
      show s.state (s.author w) = .running
      rw [hau]
      exact ht
    · exact ⟨[], Function.update_of_ne hk _ _, fun _ h => absurd h List.not_mem_nil⟩
  · exact Function.update_of_ne hv _ _
  · by_cases hk : k = key
    · subst hk
      have hw' : w ∈ u :: s.hist k := by
        rw [← show (s.push t k u).hist k = u :: s.hist k from Function.update_self _ _ _]
        exact hw
      rcases List.mem_cons.mp hw' with rfl | hw'
      · exact absurd (hav.symm.trans hau) hv
      · exact hw'
    · rw [show (s.push t key u).hist k = s.hist k from Function.update_of_ne hk _ _] at hw
      exact hw

/-- **A record comes in front of a list.** -/
theorem Inv.push (hi : Inv s) {u key : ℕ} (hr : Ready s t) (hlt : u < s.brk)
    (hau : s.author u = t) (hnot : ∀ k, u ∉ s.hist k) (hver : (s.record u).version = .owner t)
    (hnext : (s.record u).next = s.map key) : Inv (s.push t key u) := by
  obtain ⟨hb, hrun, hown⟩ := hr
  have hrely : Rely (t + 1) s (s.push t key u) := Rely.push hrun hau (Nat.succ_ne_self t)
  have hg := hrely.1
  have hself : (s.push t key u).hist key = u :: s.hist key := Function.update_self _ _ _
  have hother : ∀ k, k ≠ key → (s.push t key u).hist k = s.hist k := fun k hk =>
    Function.update_of_ne hk _ _
  have hmem : ∀ k w, w ∈ (s.push t key u).hist k ↔ (k = key ∧ w = u) ∨ w ∈ s.hist k := by
    intro k w
    by_cases hk : k = key
    · subst hk
      rw [hself, List.mem_cons]
      exact ⟨fun h => h.imp (fun h => ⟨rfl, h⟩) id, fun h => h.imp (fun h => h.2) id⟩
    · rw [hother k hk]
      exact ⟨Or.inr, fun h => h.resolve_left fun h => hk h.1⟩
  obtain ⟨h₁, h₂, h₃⟩ := hi.verdicts_keep hg (fun _ h => h) fun _ h => h
  -- a split of the new list is the new record or a split of the old list
  have hsplit : ∀ k pre w post, (s.push t key u).hist k = pre ++ w :: post →
      (k = key ∧ w = u ∧ post = s.hist key) ∨ ∃ pre', s.hist k = pre' ++ w :: post := by
    intro k pre w post heq
    by_cases hk : k = key
    · subst hk
      rw [hself] at heq
      cases pre with
      | nil =>
        simp only [List.nil_append, List.cons.injEq] at heq
        exact Or.inl ⟨rfl, heq.1.symm, heq.2.symm⟩
      | cons a pre =>
        simp only [List.cons_append, List.cons.injEq] at heq
        exact Or.inr ⟨pre, heq.2⟩
    · rw [hother k hk] at heq
      exact Or.inr ⟨pre, heq⟩
  refine ⟨fun k w hw => ?_, fun k w hw => ?_, hi.rv_le, hi.wv_le, hi.since_le, hi.wv_started, hi.decided_wv,
    hi.decided_born, fun x p => ?_, fun k => ?_, fun k pre w post heq => ?_, fun w hw => ?_,
    fun k w hw n hn => ?_, fun k w hw hab => ?_, fun k w hw x hx => ?_,
    fun k pre w post heq v hv hst => ?_, h₁, h₂, h₃, hi.verdicts⟩
  · rcases (hmem k w).mp hw with ⟨_, rfl⟩ | hw
    · exact hlt
    · exact hi.hist_lt k w hw
  · rcases (hmem k w).mp hw with ⟨_, rfl⟩ | hw
    · show s.author w ∈ s.born
      rw [hau]
      exact hb
    · exact hi.author_born k w hw
  · rw [hmem]
    show p ∈ Function.update s.writes t (s.writes t ++ [(key, u)]) x ↔ _ ∧ s.author p.2 = x
    by_cases hx : x = t
    · subst hx
      rw [Function.update_self, List.mem_append, List.mem_singleton, hi.writes_iff]
      constructor
      · rintro (⟨h, h'⟩ | rfl)
        · exact ⟨Or.inr h, h'⟩
        · exact ⟨Or.inl ⟨rfl, rfl⟩, hau⟩
      · rintro ⟨⟨h, h'⟩ | h, h''⟩
        · exact Or.inr (Prod.ext h h')
        · exact Or.inl ⟨h, h''⟩
    · rw [Function.update_of_ne hx, hi.writes_iff]
      constructor
      · rintro ⟨h, h'⟩
        exact ⟨Or.inr h, h'⟩
      · rintro ⟨⟨_, h⟩ | h, h'⟩
        · rw [h, hau] at h'
          exact absurd h'.symm hx
        · exact ⟨h, h'⟩
  · by_cases hk : k = key
    · subst hk
      exact Or.inl ⟨u, s.hist k, Function.update_self _ _ _, hself⟩
    · rw [show (s.push t key u).map k = s.map k from Function.update_of_ne hk _ _, hother k hk]
      exact hi.map_hist k
  · show (∃ v post', (s.record w).next = .upd v ∧ post = v :: post') ∨ _
    rcases hsplit k pre w post heq with ⟨rfl, rfl, rfl⟩ | ⟨pre', heq⟩
    · -- the word that was in the map when the record was pushed
      rcases hi.map_hist k with ⟨v, post', hmap, hh⟩ | ⟨hno, hall⟩
      · exact Or.inl ⟨v, post', hnext.trans hmap, hh⟩
      · exact Or.inr ⟨fun v => hnext ▸ hno v, hall⟩
    · exact hi.next_hist k pre' w post heq
  · obtain ⟨k, n, hk, hn, hall⟩ := hi.merged_num w hw
    exact ⟨k, n, (hmem k w).mpr (Or.inr hk), hn, hall⟩
  · rcases (hmem k w).mp hw with ⟨_, rfl⟩ | hw
    · rw [show ((s.push t key w).record w).version = .owner t from hver] at hn
      cases hn
    · exact hi.num_validated k w hw n hn
  · rcases (hmem k w).mp hw with ⟨_, rfl⟩ | hw
    · rw [show ((s.push t key w).record w).version = .owner t from hver] at hab
      cases hab
    · exact hi.aborted_author k w hw hab
  · rcases (hmem k w).mp hw with ⟨_, rfl⟩ | hw
    · rw [show ((s.push t key w).record w).version = .owner t from hver] at hx
      cases hx
      exact hau
    · exact hi.owner_author k w hw x hx
  · rcases hsplit k pre w post heq with ⟨rfl, rfl, rfl⟩ | ⟨pre', heq⟩
    · exact absurd (show s.state (s.author w) = .running by rw [hau]; exact hrun) hst
    · exact hi.order k pre' w post heq v hv hst

/-- A transaction gives its record its final version. -/
theorem setVersion_rely (hi : Inv s) {u v key : ℕ} {ver : Ver} (hu : u ∈ s.hist key)
    (hau : s.author u = t) (hv : v ≠ t)
    (hver : (ver = .aborted ∧ s.state t ≠ .validated)
      ∨ (ver = .num (s.wv t) ∧ s.state t = .validated)) : Rely v s (s.setVersion u ver) := by
  have hg := Grows.refl s
  have hm := Mine.refl v s
  have hother : ∀ w, w ≠ u → (s.setVersion u ver).record w = s.record w := fun w hw =>
    Function.update_of_ne hw _ _
  have hself : (s.setVersion u ver).record u = { s.record u with version := ver } :=
    Function.update_self _ _ _
  refine ⟨⟨le_rfl, le_rfl, hg.born, hg.started, hg.decided, hg.wv_keep, hg.wv_new, hg.start,
    fun _ => ⟨[], rfl, fun _ h => absurd h List.not_mem_nil⟩, hg.author, fun k w hw => ?_,
    fun k w hw n hn => ?_⟩, hm.born, hm.state, fun _ => rfl, fun w hw haw => hother w ?_, hm.hist⟩
  · by_cases hwu : w = u
    · subst hwu
      rw [hself]
    · rw [hother w hwu]
  · by_cases hwu : w = u
    · subst hwu
      obtain ⟨hval, hwv⟩ := hi.num_validated k w hw n hn
      rw [hau] at hval hwv
      rw [hself]
      rcases hver with ⟨_, hne⟩ | ⟨rfl, _⟩
      · exact absurd hval hne
      · rw [← hwv]
    · rw [hother w hwu]
      exact hn
  · rintro rfl
    exact hv (haw.symm.trans hau)

/-- **The version of a record is written.** -/
theorem Inv.setVersion (hi : Inv s) {u key : ℕ} {ver : Ver} (hu : u ∈ s.hist key)
    (hau : s.author u = t)
    (hver : (ver = .aborted ∧ (s.state t = .running ∨ s.state t = .aborted))
      ∨ (ver = .num (s.wv t) ∧ s.state t = .validated)) : Inv (s.setVersion u ver) := by
  have hver' : (ver = .aborted ∧ s.state t ≠ .validated)
      ∨ (ver = .num (s.wv t) ∧ s.state t = .validated) := by
    refine hver.imp (fun h => ⟨h.1, ?_⟩) id
    rcases h.2 with h | h <;> rw [h] <;> decide
  have hg := (setVersion_rely (v := t + 1) hi hu hau (Nat.succ_ne_self t) hver').1
  have hother : ∀ w, w ≠ u → (s.setVersion u ver).record w = s.record w := fun w hw =>
    Function.update_of_ne hw _ _
  have hself : (s.setVersion u ver).record u = { s.record u with version := ver } :=
    Function.update_self _ _ _
  obtain ⟨h₁, h₂, h₃⟩ := hi.verdicts_keep hg (fun _ h => h) fun _ h => h
  refine ⟨hi.hist_lt, hi.author_born, hi.rv_le, hi.wv_le, hi.since_le, hi.wv_started, hi.decided_wv,
    hi.decided_born, hi.writes_iff, hi.map_hist, fun k pre w post heq => ?_, fun w hw => ?_,
    fun k w hw n hn => ?_, fun k w hw hab => ?_, fun k w hw x hx => ?_, hi.order, h₁, h₂, h₃,
    hi.verdicts⟩
  · have hw : w ∈ s.hist k := by
      rw [show s.hist k = pre ++ w :: post from heq]
      exact List.mem_append_right _ List.mem_cons_self
    rw [hg.next k w hw]
    exact hi.next_hist k pre w post heq
  · obtain ⟨k, n, hk, hn, hall⟩ := hi.merged_num w hw
    exact ⟨k, n, hk, hg.num k w hk n hn, hall⟩
  · by_cases hwu : w = u
    · subst hwu
      rw [hself] at hn
      show s.state (s.author w) = _ ∧ s.wv (s.author w) = n
      rw [hau]
      rcases hver with ⟨rfl, _⟩ | ⟨rfl, hst⟩
      · cases hn
      · cases hn
        exact ⟨hst, rfl⟩
    · rw [hother w hwu] at hn
      exact hi.num_validated k w hw n hn
  · by_cases hwu : w = u
    · subst hwu
      rw [hself] at hab
      show s.state (s.author w) = _ ∨ s.state (s.author w) = _
      rw [hau]
      rcases hver with ⟨_, hst⟩ | ⟨rfl, _⟩
      · exact hst
      · cases hab
    · rw [hother w hwu] at hab
      exact hi.aborted_author k w hw hab
  · by_cases hwu : w = u
    · subst hwu
      rw [hself] at hx
      rcases hver with ⟨rfl, _⟩ | ⟨rfl, _⟩ <;> cases hx
    · rw [hother w hwu] at hx
      exact hi.owner_author k w hw x hx

/-- The only record that is left of a list is merged into the map. -/
theorem Rely.merge (v : ℕ) (s : Shared) (key u : ℕ) : Rely v s (s.merge key u) := by
  have hg := Grows.refl s
  have hm := Mine.refl v s
  exact ⟨⟨le_rfl, le_rfl, hg.born, hg.started, hg.decided, hg.wv_keep, hg.wv_new, hg.start,
    hg.hist, hg.author, hg.next, hg.num⟩, hm.born, hm.state, hm.writes, hm.record, hm.hist⟩

/-- **A record is merged into the map.** -/
theorem Inv.merge (hi : Inv s) {u key n : ℕ} (hmap : s.map key = .upd u)
    (hnext : ∀ v, (s.record u).next ≠ .upd v) (hver : (s.record u).version = .num n)
    (hold : ∀ x ∈ s.born, ¬ s.Decided x → n ≤ s.rv x) : Inv (s.merge key u) := by
  -- `u` heads the list, and what is behind it has been merged before
  obtain ⟨post, hh, hpost⟩ : ∃ post, s.hist key = u :: post ∧ ∀ v ∈ post, v ∈ s.merged := by
    rcases hi.map_hist key with ⟨w, post, hw, hh⟩ | ⟨hno, _⟩
    · rw [hmap] at hw
      cases hw
      rcases hi.next_hist key [] u post hh with ⟨v, _, hv, _⟩ | ⟨_, hall⟩
      · exact absurd hv (hnext v)
      · exact ⟨post, hh, hall⟩
    · exact absurd hmap (hno u)
  have hmem : u ∈ s.hist key := by
    rw [hh]
    exact List.mem_cons_self
  refine ⟨hi.hist_lt, hi.author_born, hi.rv_le, hi.wv_le, hi.since_le, hi.wv_started, hi.decided_wv,
    hi.decided_born, hi.writes_iff, fun k => ?_, fun k pre w post' heq => ?_,
    List.forall_mem_cons.mpr ⟨⟨key, n, hmem, hver, hold⟩, hi.merged_num⟩, hi.num_validated,
    hi.aborted_author, hi.owner_author, hi.order, hi.passed, hi.sound, hi.beaten, hi.verdicts⟩
  · by_cases hk : k = key
    · subst hk
      refine Or.inr ⟨fun w hw => ?_, fun w hw => ?_⟩
      · rw [show (s.merge k u).map k = .lit (s.record u).value from Function.update_self _ _ _] at hw
        cases hw
      · rw [show (s.merge k u).hist k = u :: post from hh] at hw
        exact List.mem_cons.mpr ((List.mem_cons.mp hw).imp id (hpost w))
    · rw [show (s.merge key u).map k = s.map k from Function.update_of_ne hk _ _]
      exact (hi.map_hist k).imp id fun h => ⟨h.1, fun w hw => List.mem_cons_of_mem _ (h.2 w hw)⟩
  · exact (hi.next_hist k pre w post' heq).imp id fun h =>
      ⟨h.1, fun v hv => List.mem_cons_of_mem _ (h.2 v hv)⟩

end Updates

end TxnSteps
