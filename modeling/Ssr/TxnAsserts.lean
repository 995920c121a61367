/-
# The assertions below the transactions

`Asserted` lists, for the next step of a transaction, the assertions it evaluates: those
of `ht_cas` on the new value, of `sl_cas` on the new count, and those of `txn_validate`,
`validate_key` and `txn_map_get` on the state of a transaction.

Three branches lead to one that fails: merging a record whose value is `DOES_NOT_EXIST`,
lowering a count again in `txn_begin`, and finding the largest count there is.  In a run
that takes none of them every assertion holds.
-/
import Ssr.TxnSteps

open Interleaving Map TxnSteps
open Txn (Val Ver State undeterminedVersion)

namespace TxnAsserts

/-! ## What is asserted -/

/-- The word for a value of the map; `addr` is where a record lies. -/
def word (addr : ℕ → ℕ) : Val → ℕ
  | .dne => doesNotExist
  | .lit v => v
  | .upd u => 2 ^ 62 ||| addr u

/-- The assertion of `ht_cas` on its new value: not `DOES_NOT_EXIST`, `TAG1` clear, not
`TOMBSTONE`. -/
def Storable (w : ℕ) : Prop := w ≠ doesNotExist ∧ w < 2 ^ 63 ∧ w ≠ 2 ^ 63 - 1

instance (w : ℕ) : Decidable (Storable w) := inferInstanceAs (Decidable (_ ∧ _))

/-- The assertions that the next step of a transaction evaluates hold. -/
def Asserted (addr : ℕ → ℕ) (s : Shared) : Pc → Prop
  -- sl_cas
  | .begin (.beginCas _ old) => 0 < Active.incr old
  | .begin (.undoCas _ old) | .count (.commitCas _ old) => 0 < Active.decr old
  -- ht_cas
  | .setCas _ _ u _ => Storable (word addr (.upd u))
  | .mergeCas _ u => Storable (s.record u).value
  -- txn_validate and validate_key
  | .validate x _ .switch | .validate x _ (.mapGet _) => s.state x ≠ .running
  -- the callers of txn_validate go on with a verdict
  | .validate x _ .ret => s.Decided x
  | _ => True

instance (addr : ℕ → ℕ) (s : Shared) (pc : Pc) : Decidable (Asserted addr s pc) :=
  match pc with
  | .begin p =>
    match p with
    | .beginCas _ _ | .undoCas _ _ | .commitCas _ _ | .idle | .beginVersion | .beginCheck _
    | .running _ | .commitAdd _ | .commitVersion _ _ | .commitRemove _ => by
      unfold Asserted; infer_instance
  | .count p =>
    match p with
    | .beginCas _ _ | .undoCas _ _ | .commitCas _ _ | .idle | .beginVersion | .beginCheck _
    | .running _ | .commitAdd _ | .commitVersion _ _ | .commitRemove _ => by
      unfold Asserted; infer_instance
  | .validate _ _ q =>
    match q with
    | .switch | .mapGet _ | .ret | .needVersion | .add | .setVersion _ | .tag _ _
    | .aborted _ _ | .writer _ _ | .writerState _ _ _ | .writerVersion _ _ _ | .compare _ _ _
    | .storeAborted | .check | .storeValidated => by
      unfold Asserted; infer_instance
  | .setCas _ _ _ _ | .mergeCas _ _ | .unborn | .ready | .setGet _ _ | .commitState
  | .commitVerdict | .commitVersion | .detach _ _ | .abort _ | .getMap _ | .getTag _ _ _
  | .getAborted _ _ _ | .getWriter _ _ _ | .getState _ _ _ _ | .getVersion _ _ _ _
  | .getCompare _ _ _ _ | .collectMin _ _ | .collectVersion _ _ | .collectFree _
  | .mergeMin _ _ | .mergeVersion _ _ _ | .finished | .fault => by
    unfold Asserted; infer_instance

/-- The condition on one step.  `txn_begin` does not find the largest count, and finds
`version_` where it was; `txn_map_get` does not go on to merge a record whose value is
`DOES_NOT_EXIST`. -/
def Fits (_t : ℕ) (s : Shared) (pc : Pc) (c : Cmd) : Prop :=
  match pc, c with
  | .begin (.beginCas rv _), .resume =>
    ∀ n ∈ Active.slFind rv s.counts.active, n % 2 ^ 32 ≠ 2 ^ 32 - 1
  | .begin (.beginCheck rv), .resume => rv = s.counts.version
  | .mergeVersion _ u min, .resume =>
    (s.record u).version.le min = true → (s.record u).value ≠ doesNotExist
  | _, _ => True

instance (t : ℕ) (s : Shared) (pc : Pc) (c : Cmd) : Decidable (Fits t s pc c) := by
  unfold Fits
  split <;> infer_instance

/-! ## The invariant -/

/-- What every step keeps. -/
structure Grows (s s' : Shared) : Prop where
  version : s.counts.version ≤ s'.counts.version
  brk : s.brk ≤ s'.brk
  started : ∀ x, s.state x ≠ .running → s'.state x ≠ .running
  decided : ∀ x, s.Decided x → s'.Decided x
  rv : ∀ x, s.state x ≠ .running → s'.rv x = s.rv x
  value : ∀ u, u < s.brk → (s'.record u).value = (s.record u).value
  num : ∀ u n, (s.record u).version = .num n → (s'.record u).version = .num n

/-- What thread `t` relies on. -/
structure Rely (t : ℕ) (s s' : Shared) : Prop where
  grows : Grows s s'
  running : s.state t = .running → s'.state t = .running ∧ s'.wv t = s.wv t
  rv : s'.rv t = s.rv t
  writes : s'.writes t = s.writes t
  owned : ∀ u, (s.record u).version = .owner t → (s'.record u).version = .owner t

/-- The shared part of the invariant. -/
structure Inv (s : Shared) : Prop where
  rv_le : ∀ x, s.rv x ≤ s.counts.version
  wv_lt : ∀ x, s.wv x ≠ undeterminedVersion → s.rv x < s.counts.version
  decided_lt : ∀ x, s.Decided x → s.rv x < s.counts.version
  map_lt : ∀ k u, s.map k = .upd u → u < s.brk
  next_lt : ∀ u w, (s.record u).next = .upd w → w < s.brk
  value_lt : ∀ u, (s.record u).value < 2 ^ 62
  fresh : ∀ u, s.brk ≤ u → (s.record u).version = .aborted

section Local

variable (s : Shared)

/-- Transaction `t` has not begun to commit. -/
def Running (t : ℕ) : Prop := s.state t = .running ∧ s.wv t = undeterminedVersion

/-- The records of `ws` are different ones, and `t` is still attached to them. -/
def Owns (t : ℕ) (ws : List (ℕ × ℕ)) : Prop :=
  (ws.map Prod.snd).Nodup ∧ ∀ p ∈ ws, (s.record p.2).version = .owner t

/-- What `txn_validate(x)` knows, by stage. -/
def StageOk (x : ℕ) : Stage → Prop
  | .switch | .needVersion | .add => s.state x ≠ .running
  | .ret => s.Decided x
  | .writerVersion _ _ w => (s.state x ≠ .running ∧ s.rv x < s.counts.version) ∧ s.state w ≠ .running
  | _ => s.state x ≠ .running ∧ s.rv x < s.counts.version

/-- What the suspended callers of a `txn_validate(x)` of thread `t` know. -/
def StackOk (t : ℕ) : ℕ → List Frame → Prop
  | _, [] => False
  | _, .key y _ _ _ :: stack =>
    (s.state y ≠ .running ∧ s.rv y < s.counts.version) ∧ StackOk t y stack
  | _, .get _ u _ _ :: _ => Running s t ∧ u < s.brk
  | x, .commit :: _ => x = t

/-- The counting loop of `txn_begin`: it neither lowers a count nor stands at the largest. -/
def BeginOk : Active.Pc → Prop
  | .beginVersion | .beginCheck _ => True
  | .beginCas _ old => old < 2 ^ 32 - 1
  | _ => False

/-- The counting loop of `txn_commit`: it lowers no count that is 1. -/
def CountOk : Active.Pc → Prop
  | .commitCas rv old => rv < s.counts.version ∧ old < 2 ^ 32 ∧ old ≠ 1
  | .commitVersion rv _ => rv < s.counts.version
  | .commitRemove _ => True
  | _ => False

/-- A transaction between two calls, or in one that leaves it running. -/
def Ready (t : ℕ) : Prop := Running s t ∧ Owns s t (s.writes t)

/-- The local part of the invariant, by program counter. -/
def Local (t : ℕ) : Pc → Prop
  | .unborn | .ready | .commitState | .getMap _ => Ready s t
  | .collectMin _ _ | .collectVersion _ _ | .collectFree _ => Ready s t
  | .begin p => Ready s t ∧ BeginOk p
  | .setGet _ value => Ready s t ∧ value < 2 ^ 62
  | .setCas _ _ u old =>
    Ready s t ∧ (s.record u).version = .owner t ∧ u ∉ (s.writes t).map Prod.snd ∧ u < s.brk
      ∧ ∀ w, old = .upd w → w < s.brk
  | .validate x stack q => Owns s t (s.writes t) ∧ StageOk s x q ∧ StackOk s t x stack
  | .commitVerdict | .commitVersion => Owns s t (s.writes t) ∧ s.rv t < s.counts.version
  | .detach _ ws => Owns s t ws ∧ s.rv t < s.counts.version
  | .count p => CountOk s p
  | .abort ws => Owns s t ws
  | .getTag _ u _ | .getAborted _ u _ | .getWriter _ u _ => Ready s t ∧ u < s.brk
  | .getState _ u _ _ | .getCompare _ u _ _ => Ready s t ∧ u < s.brk
  | .getVersion _ u w _ => Ready s t ∧ u < s.brk ∧ s.state w ≠ .running
  | .mergeMin _ u | .mergeVersion _ u _ => Ready s t ∧ u < s.brk
  | .mergeCas _ u => Ready s t ∧ u < s.brk ∧ (s.record u).value ≠ doesNotExist
  | .finished | .fault => True

end Local

/-! ## Stability -/

section Stable

variable {s s' : Shared} {t x : ℕ}

/-- Other transactions do not end this one. -/
theorem Running.stable (h : Rely t s s') (hr : Running s t) : Running s' t := by
  obtain ⟨hst, hwv⟩ := h.running hr.1
  exact ⟨hst, hwv.trans hr.2⟩

/-- They do not touch its records. -/
theorem Owns.stable (h : Rely t s s') {ws : List (ℕ × ℕ)} (ho : Owns s t ws) : Owns s' t ws :=
  ⟨ho.1, fun p hp => h.owned p.2 (ho.2 p hp)⟩

/-- They do not touch its write set. -/
theorem Owns.writes_stable (h : Rely t s s') (ho : Owns s t (s.writes t)) :
    Owns s' t (s'.writes t) := by
  rw [h.writes]
  exact ho.stable h

/-- It stays ready for its next call. -/
theorem Ready.stable (h : Rely t s s') (hr : Ready s t) : Ready s' t :=
  ⟨hr.1.stable h, hr.2.writes_stable h⟩

/-- A transaction that is being validated keeps its read version. -/
theorem Grows.versioned (h : Grows s s') (hx : s.state x ≠ .running ∧ s.rv x < s.counts.version) :
    s'.state x ≠ .running ∧ s'.rv x < s'.counts.version := by
  refine ⟨h.started x hx.1, ?_⟩
  rw [h.rv x hx.1]
  exact hx.2.trans_le h.version

/-- What a stage of `txn_validate` rests on stays. -/
theorem StageOk.stable (h : Grows s s') {q : Stage} (hq : StageOk s x q) : StageOk s' x q := by
  cases q with
  | switch | needVersion | add => exact h.started x hq
  | ret => exact h.decided x hq
  | writerVersion i u w => exact ⟨h.versioned hq.1, h.started w hq.2⟩
  | setVersion | mapGet | tag | aborted | writer | writerState | compare
  | storeAborted | check | storeValidated => exact h.versioned hq

/-- So does what the callers of it rest on. -/
theorem StackOk.stable (h : Rely t s s') {stack : List Frame} (hst : StackOk s t x stack) :
    StackOk s' t x stack := by
  induction stack generalizing x with
  | nil => exact hst
  | cons frame stack ih =>
    cases frame with
    | key y i u w => exact ⟨h.grows.versioned hst.1, ih hst.2⟩
    | get key u w newest => exact ⟨hst.1.stable h, hst.2.trans_le h.grows.brk⟩
    | commit => exact hst

/-- So does what the loops on `active_` rest on. -/
theorem CountOk.stable (h : Grows s s') {p : Active.Pc} (hp : CountOk s p) : CountOk s' p := by
  have hversion := h.version
  cases p with
  | commitCas rv old => exact ⟨hp.1.trans_le hversion, hp.2⟩
  | commitVersion rv old => exact lt_of_lt_of_le hp hversion
  | commitRemove => exact hp
  | idle | beginVersion | beginCas | beginCheck | undoCas | running | commitAdd => exact hp

/-- Everything that thread `t` rests on is stable. -/
theorem Local.stable (h : Rely t s s') {pc : Pc} (hl : Local s t pc) : Local s' t pc := by
  have hbrk := h.grows.brk
  have hrv : s.rv t < s.counts.version → s'.rv t < s'.counts.version := fun hlt => by
    rw [h.rv]
    exact hlt.trans_le h.grows.version
  cases pc with
  | unborn | ready | commitState | getMap | collectMin | collectVersion | collectFree =>
    exact Ready.stable h hl
  | begin | setGet => exact ⟨Ready.stable h hl.1, hl.2⟩
  | setCas key value u old =>
    obtain ⟨hr, howner, hnot, hu, hold⟩ := hl
    refine ⟨hr.stable h, h.owned u howner, ?_, hu.trans_le hbrk, fun w hw => (hold w hw).trans_le hbrk⟩
    rw [h.writes]
    exact hnot
  | validate x stack q =>
    exact ⟨hl.1.writes_stable h, hl.2.1.stable h.grows, hl.2.2.stable h⟩
  | commitVerdict | commitVersion => exact ⟨hl.1.writes_stable h, hrv hl.2⟩
  | detach v ws => exact ⟨hl.1.stable h, hrv hl.2⟩
  | count p => exact CountOk.stable h.grows hl
  | abort ws => exact Owns.stable h hl
  | getTag | getAborted | getWriter | getState | getCompare | mergeMin | mergeVersion =>
    exact ⟨hl.1.stable h, hl.2.trans_le hbrk⟩
  | getVersion key u w newest =>
    exact ⟨hl.1.stable h, hl.2.1.trans_le hbrk, h.grows.started w hl.2.2⟩
  | mergeCas key u =>
    refine ⟨hl.1.stable h, hl.2.1.trans_le hbrk, ?_⟩
    rw [h.grows.value u hl.2.1]
    exact hl.2.2
  | finished | fault => trivial

end Stable

/-! ## The stores -/

section Stores

variable {s s' : Shared} {t x : ℕ}

/-- A store that no thread relies on. -/
structure Same (s s' : Shared) : Prop where
  version : s.counts.version ≤ s'.counts.version
  brk : s'.brk = s.brk
  state : s'.state = s.state
  wv : s'.wv = s.wv
  rv : s'.rv = s.rv
  writes : s'.writes = s.writes
  recordVersion : ∀ u, (s'.record u).version = (s.record u).version
  recordValue : ∀ u, (s'.record u).value = (s.record u).value

/-- A decided transaction is decided afterwards. -/
theorem Same.decided (h : Same s s') : s'.Decided x ↔ s.Decided x := by
  rw [Shared.Decided, Shared.Decided, h.state]

/-- What leaves the transactions alone is no matter to any of them. -/
theorem Same.rely (h : Same s s') (v : ℕ) : Rely v s s' where
  grows :=
    { version := h.version
      brk := h.brk.ge
      started := fun x hx => by rwa [h.state]
      decided := fun x hx => h.decided.mpr hx
      rv := fun x _ => by rw [h.rv]
      value := fun u _ => h.recordValue u
      num := fun u n hn => (h.recordVersion u).trans hn }
  running := fun hst => ⟨by rwa [h.state], by rw [h.wv]⟩
  rv := by rw [h.rv]
  writes := by rw [h.writes]
  owned := fun u hu => (h.recordVersion u).trans hu

/-- It keeps the invariant when the links stay in the memory. -/
theorem Same.inv (h : Same s s') (hi : Inv s) (hmap : ∀ k u, s'.map k = .upd u → u < s.brk)
    (hnext : ∀ u w, (s'.record u).next = .upd w → w < s.brk) : Inv s' where
  rv_le := fun x => by
    rw [h.rv]
    exact (hi.rv_le x).trans h.version
  wv_lt := fun x hx => by
    rw [h.wv] at hx
    rw [h.rv]
    exact (hi.wv_lt x hx).trans_le h.version
  decided_lt := fun x hx => by
    rw [h.rv]
    exact (hi.decided_lt x (h.decided.mp hx)).trans_le h.version
  map_lt := fun k u hu => h.brk ▸ hmap k u hu
  next_lt := fun u w hw => h.brk ▸ hnext u w hw
  value_lt := fun u => by
    rw [h.recordValue]
    exact hi.value_lt u
  fresh := fun u hu => by
    rw [h.recordVersion]
    exact hi.fresh u (h.brk ▸ hu)

/-- What the step lemma says of a step of transaction `t`. -/
def StepOk (t : ℕ) (s : Shared) (r : Shared × Pc) : Prop :=
  Inv r.1 ∧ Local r.1 t r.2 ∧ ∀ v, v ≠ t → Rely v s r.1

/-- A step that changes nothing anybody relies on. -/
theorem StepOk.same (hi : Inv s) (h : Same s s') (hmap : ∀ k u, s'.map k = .upd u → u < s.brk)
    (hnext : ∀ u w, (s'.record u).next = .upd w → w < s.brk) {pc : Pc} (hl : Local s t pc) :
    StepOk t s (s', pc) :=
  ⟨h.inv hi hmap hnext, hl.stable (h.rely t), fun v _ => h.rely v⟩

/-- Nothing changes. -/
theorem Same.refl (s : Shared) : Same s s :=
  ⟨le_rfl, rfl, rfl, rfl, rfl, rfl, fun _ => rfl, fun _ => rfl⟩

/-- Asking for a verdict changes no record. -/
theorem Same.consult (s : Shared) (x : ℕ) : Same s (s.consult x) := by
  unfold Shared.consult
  split
  · exact ⟨le_rfl, rfl, rfl, rfl, rfl, rfl, fun _ => rfl, fun _ => rfl⟩
  · exact Same.refl s

/-- A step on `active_` changes no record. -/
theorem Same.counts (s : Shared) {counts : Active.Shared} (h : s.counts.version ≤ counts.version) :
    Same s { s with counts := counts } :=
  ⟨h, rfl, rfl, rfl, rfl, rfl, fun _ => rfl, fun _ => rfl⟩

/-- A store into a link changes no version. -/
theorem Same.setNext (s : Shared) (u : ℕ) (v : Val) : Same s (s.setNext u v) := by
  refine ⟨le_rfl, rfl, rfl, rfl, rfl, rfl, fun w => ?_, fun w => ?_⟩
  · by_cases hw : w = u
    · subst hw
      simp only [Shared.setNext, Function.update_self]
    · simp only [Shared.setNext, Function.update_of_ne hw]
  · by_cases hw : w = u
    · subst hw
      simp only [Shared.setNext, Function.update_self]
    · simp only [Shared.setNext, Function.update_of_ne hw]

/-- The links stay in the memory. -/
theorem setNext_next {u w : ℕ} {v : Val} (hi : Inv s) (hv : ∀ n, v = .upd n → n < s.brk) {n : ℕ}
    (h : ((s.setNext u v).record w).next = .upd n) : n < s.brk := by
  by_cases hw : w = u
  · subst hw
    simp only [Shared.setNext, Function.update_self] at h
    exact hv n h
  · simp only [Shared.setNext, Function.update_of_ne hw] at h
    exact hi.next_lt w n h

/-- A step that leaves the shared state alone. -/
theorem StepOk.stay (hi : Inv s) {pc : Pc} (hl : Local s t pc) : StepOk t s (s, pc) :=
  StepOk.same hi (Same.refl s) hi.map_lt hi.next_lt hl

/-- A step that reads a verdict. -/
theorem StepOk.consult (hi : Inv s) (x : ℕ) {pc : Pc} (hl : Local s t pc) :
    StepOk t s (s.consult x, pc) := by
  have hmap : (s.consult x).map = s.map := by
    unfold Shared.consult
    split <;> rfl
  have hrecord : (s.consult x).record = s.record := by
    unfold Shared.consult
    split <;> rfl
  refine StepOk.same hi (Same.consult s x) ?_ ?_ hl
  · rw [hmap]
    exact hi.map_lt
  · rw [hrecord]
    exact hi.next_lt

/-- A step on `active_`. -/
theorem StepOk.counts (hi : Inv s) {counts : Active.Shared}
    (h : s.counts.version ≤ counts.version) {pc : Pc} (hl : Local s t pc) :
    StepOk t s ({ s with counts := counts }, pc) :=
  StepOk.same hi (Same.counts s h) hi.map_lt hi.next_lt hl

/-- A store into a link. -/
theorem StepOk.setNext (hi : Inv s) {u : ℕ} {v : Val} (hv : ∀ n, v = .upd n → n < s.brk) {pc : Pc}
    (hl : Local s t pc) : StepOk t s (s.setNext u v, pc) :=
  StepOk.same hi (Same.setNext s u v) hi.map_lt (fun _ _ => setNext_next hi hv) hl

/-- The merge of a record into the map. -/
theorem StepOk.merge (hi : Inv s) {key u : ℕ} {pc : Pc} (hl : Local s t pc) :
    StepOk t s (s.merge key u, pc) := by
  have hsame : Same s (s.merge key u) :=
    ⟨le_rfl, rfl, rfl, rfl, rfl, rfl, fun _ => rfl, fun _ => rfl⟩
  refine StepOk.same hi hsame (fun k w hw => ?_) hi.next_lt hl
  by_cases hk : k = key
  · subst hk
    simp only [Shared.merge, Function.update_self, reduceCtorEq] at hw
  · simp only [Shared.merge, Function.update_of_ne hk] at hw
    exact hi.map_lt k w hw

/-! ### The records -/

/-- A new record is none of the old ones. -/
theorem alloc_record_of_lt {value u : ℕ} (hu : u < s.brk) :
    (s.alloc t value).record u = s.record u :=
  Function.update_of_ne (by omega) _ _

/-- A new record is no matter to the other transactions. -/
theorem alloc_rely (hi : Inv s) (t value v : ℕ) : Rely v s (s.alloc t value) where
  grows :=
    { version := le_rfl
      brk := Nat.le_succ _
      started := fun _ hx => hx
      decided := fun _ hx => hx
      rv := fun _ _ => rfl
      value := fun u hu => by rw [alloc_record_of_lt hu]
      num := fun u n hn => by
        by_cases hu : u < s.brk
        · rw [alloc_record_of_lt hu]
          exact hn
        · rw [hi.fresh u (not_lt.mp hu)] at hn
          cases hn }
  running := fun hst => ⟨hst, rfl⟩
  rv := rfl
  writes := rfl
  owned := fun u hu' => by
    by_cases hu : u < s.brk
    · rw [alloc_record_of_lt hu]
      exact hu'
    · rw [hi.fresh u (not_lt.mp hu)] at hu'
      cases hu'

/-- A new record keeps the invariant. -/
theorem alloc_inv (hi : Inv s) {value : ℕ} (hvalue : value < 2 ^ 62) :
    Inv (s.alloc t value) where
  rv_le := hi.rv_le
  wv_lt := hi.wv_lt
  decided_lt := hi.decided_lt
  map_lt := fun k u hu => (hi.map_lt k u hu).trans (Nat.lt_succ_self _)
  next_lt := fun u w hw => by
    by_cases hu : u = s.brk
    · subst hu
      simp only [Shared.alloc, Function.update_self, reduceCtorEq] at hw
    · simp only [Shared.alloc, Function.update_of_ne hu] at hw
      exact (hi.next_lt u w hw).trans (Nat.lt_succ_self _)
  value_lt := fun u => by
    by_cases hu : u = s.brk
    · subst hu
      simp only [Shared.alloc, Function.update_self]
      exact hvalue
    · simp only [Shared.alloc, Function.update_of_ne hu]
      exact hi.value_lt u
  fresh := fun u hu => by
    have hbrk : (s.alloc t value).brk = s.brk + 1 := rfl
    have hne : u ≠ s.brk := by omega
    simp only [Shared.alloc, Function.update_of_ne hne]
    exact hi.fresh u (by omega)

/-- `txn_map_set` makes a record that nobody has. -/
theorem StepOk.alloc (hi : Inv s) (hr : Ready s t) {key value : ℕ} (hvalue : value < 2 ^ 62) :
    StepOk t s (s.alloc t value, .setCas key value s.brk (s.map key)) := by
  have hbrk : (s.alloc t value).brk = s.brk + 1 := rfl
  refine ⟨alloc_inv hi hvalue, ⟨hr.stable (alloc_rely hi t value t), ?_, ?_, ?_, ?_⟩,
    fun v _ => alloc_rely hi t value v⟩
  · simp only [Shared.alloc, Function.update_self]
  · -- the records of the write set are attached to `t`, the new one was to nobody
    intro hmem
    obtain ⟨p, hp, heq⟩ := List.mem_map.mp hmem
    have howner := hr.2.2 p hp
    rw [heq, hi.fresh s.brk le_rfl] at howner
    cases howner
  · exact Nat.lt_succ_self s.brk
  · intro w hw
    exact (hi.map_lt key w hw).trans (Nat.lt_succ_self s.brk)

/-- `txn_map_set` puts its record in front of the others. -/
theorem StepOk.push (hi : Inv s) {key u : ℕ} {old : Val} (hr : Ready s t)
    (howner : (s.record u).version = .owner t) (hnot : u ∉ (s.writes t).map Prod.snd)
    (hu : u < s.brk) (hold : ∀ w, old = .upd w → w < s.brk) :
    StepOk t s ((s.setNext u old).push t key u, .ready) := by
  have hsame := Same.setNext s u old
  have hversion := hsame.recordVersion
  have hvalue := hsame.recordValue
  have hbrk : ((s.setNext u old).push t key u).brk = s.brk := rfl
  have hrecord : ((s.setNext u old).push t key u).record = (s.setNext u old).record := rfl
  refine ⟨?_, ⟨hr.1, ?_, fun p hp => ?_⟩, fun v hv => ?_⟩
  · refine ⟨hi.rv_le, hi.wv_lt, hi.decided_lt, fun k w hw => ?_, fun w n hn => setNext_next hi hold hn,
      fun w => ?_, fun w hw => ?_⟩
    · by_cases hk : k = key
      · subst hk
        simp only [Shared.push, Function.update_self, Val.upd.injEq] at hw
        rw [← hw]
        exact hu
      · simp only [Shared.push, Function.update_of_ne hk] at hw
        exact hi.map_lt k w hw
    · rw [hrecord, hvalue]
      exact hi.value_lt w
    · rw [hrecord, hversion]
      exact hi.fresh w hw
  · simp only [Shared.push, Function.update_self, List.map_append, List.map_cons, List.map_nil]
    exact List.Nodup.append hr.2.1 (List.nodup_singleton u)
      (fun w hw hw' => hnot (List.mem_singleton.mp hw' ▸ hw))
  · simp only [Shared.push, Function.update_self] at hp
    rw [hrecord, hversion]
    rcases List.mem_append.mp hp with hp | hp
    · exact hr.2.2 p hp
    · rw [List.mem_singleton.mp hp]
      exact howner
  · have hrely := hsame.rely v
    exact ⟨⟨le_rfl, le_rfl, fun _ hx => hx, fun _ hx => hx, fun _ _ => rfl, hrely.grows.value,
      hrely.grows.num⟩, fun hst => ⟨hst, rfl⟩, rfl, Function.update_of_ne hv _ _, hrely.owned⟩

/-- A transaction gives up a record of its own. -/
theorem setVersion_ok (hi : Inv s) {k u : ℕ} (ver : Ver) {ws : List (ℕ × ℕ)}
    (ho : Owns s t ((k, u) :: ws)) :
    Inv (s.setVersion u ver) ∧ Owns (s.setVersion u ver) t ws
      ∧ ∀ v, v ≠ t → Rely v s (s.setVersion u ver) := by
  have howner : (s.record u).version = .owner t := ho.2 (k, u) List.mem_cons_self
  have hself : (s.setVersion u ver).record u = { s.record u with version := ver } :=
    Function.update_self _ _ _
  have hother : ∀ w, w ≠ u → (s.setVersion u ver).record w = s.record w :=
    fun w hw => Function.update_of_ne hw _ _
  have hvalue : ∀ w, ((s.setVersion u ver).record w).value = (s.record w).value := fun w => by
    by_cases hw : w = u
    · rw [hw, hself]
    · rw [hother w hw]
  have hnext : ∀ w, ((s.setVersion u ver).record w).next = (s.record w).next := fun w => by
    by_cases hw : w = u
    · rw [hw, hself]
    · rw [hother w hw]
  have hlt : u < s.brk := by
    by_contra hge
    rw [hi.fresh u (not_lt.mp hge)] at howner
    cases howner
  refine ⟨⟨hi.rv_le, hi.wv_lt, hi.decided_lt, hi.map_lt, fun w n hn => ?_, fun w => ?_,
    fun w hw => ?_⟩, ⟨?_, fun p hp => ?_⟩, fun v hv => ?_⟩
  · rw [hnext] at hn
    exact hi.next_lt w n hn
  · rw [hvalue]
    exact hi.value_lt w
  · have hge : s.brk ≤ w := hw
    rw [hother w (by omega)]
    exact hi.fresh w hge
  · exact (List.nodup_cons.mp ho.1).2
  · have hne : p.2 ≠ u := by
      rintro rfl
      exact (List.nodup_cons.mp ho.1).1 (List.mem_map.mpr ⟨p, hp, rfl⟩)
    rw [hother _ hne]
    exact ho.2 p (List.mem_cons_of_mem _ hp)
  · have hkeep : ∀ w ver', (s.record w).version = ver' → ver' ≠ .owner t →
        ((s.setVersion u ver).record w).version = ver' := by
      intro w ver' hver hne
      rw [hother w fun heq => hne (by rw [← hver, heq, howner])]
      exact hver
    exact ⟨⟨le_rfl, le_rfl, fun _ hx => hx, fun _ hx => hx, fun _ _ => rfl, fun w _ => hvalue w,
      fun w n hn => hkeep w _ hn (by simp)⟩, fun hst => ⟨hst, rfl⟩, rfl, rfl,
      fun w hw => hkeep w _ hw (by simp [hv])⟩

/-! ### The states -/

/-- A verdict is stored for a transaction that is being validated. -/
theorem setState_ok (hi : Inv s) {st : State} (hst : st = .validated ∨ st = .aborted)
    (hx : s.state x ≠ .running) (hlt : s.rv x < s.counts.version) :
    Inv (s.setState x st) ∧ (∀ v, Rely v s (s.setState x st)) ∧ (s.setState x st).Decided x := by
  have hself : (s.setState x st).state x = st := Function.update_self _ _ _
  have hother : ∀ y, y ≠ x → (s.setState x st).state y = s.state y :=
    fun y hy => Function.update_of_ne hy _ _
  have hdec : (s.setState x st).Decided x := by
    rw [Shared.Decided, hself]
    exact hst
  have hdec' : ∀ y, y ≠ x → ((s.setState x st).Decided y ↔ s.Decided y) := fun y hy => by
    rw [Shared.Decided, Shared.Decided, hother y hy]
  refine ⟨⟨hi.rv_le, hi.wv_lt, fun y hy => ?_, hi.map_lt, hi.next_lt, hi.value_lt, hi.fresh⟩,
    fun v => ⟨⟨le_rfl, le_rfl, fun y hy => ?_, fun y hy => ?_, fun _ _ => rfl, fun _ _ => rfl,
      fun _ _ hn => hn⟩, fun hv => ⟨?_, rfl⟩, rfl, rfl, fun _ hu => hu⟩, hdec⟩
  · by_cases hyx : y = x
    · rw [hyx]
      exact hlt
    · exact hi.decided_lt y ((hdec' y hyx).mp hy)
  · by_cases hyx : y = x
    · rw [hyx, hself]
      rcases hst with rfl | rfl <;> simp
    · rwa [hother y hyx]
  · by_cases hyx : y = x
    · rw [hyx]
      exact hdec
    · exact (hdec' y hyx).mpr hy
  · have hvx : v ≠ x := by
      rintro rfl
      exact hx hv
    rwa [hother v hvx]

/-- `txn_commit` begins. -/
theorem StepOk.setValidating (hi : Inv s) (hr : Ready s t) :
    StepOk t s (s.setValidating t, .validate t [.commit] .switch) := by
  have hself : (s.setValidating t).state t = .validating := Function.update_self _ _ _
  have hother : ∀ y, y ≠ t → (s.setValidating t).state y = s.state y :=
    fun y hy => Function.update_of_ne hy _ _
  have hne : ∀ y, s.state y ≠ .running → y ≠ t := by
    rintro y hy rfl
    exact hy hr.1.1
  refine ⟨⟨hi.rv_le, hi.wv_lt, fun y hy => ?_, hi.map_lt, hi.next_lt, hi.value_lt, hi.fresh⟩,
    ⟨hr.2, ?_, rfl⟩, fun v hv => ⟨⟨le_rfl, le_rfl, fun y hy => ?_, fun y hy => ?_, fun _ _ => rfl,
      fun _ _ => rfl, fun _ _ hn => hn⟩, fun hst => ⟨?_, rfl⟩, rfl, rfl, fun _ hu => hu⟩⟩
  · refine hi.decided_lt y ?_
    by_cases hyt : y = t
    · subst hyt
      rw [Shared.Decided, hself] at hy
      simp at hy
    · rwa [Shared.Decided, hother y hyt] at hy
  · show (s.setValidating t).state t ≠ .running
    rw [hself]
    simp
  · rwa [hother y (hne y hy)]
  · have hyt : y ≠ t := hne y (by rcases hy with h | h <;> simp [h])
    rwa [Shared.Decided, hother y hyt]
  · rwa [hother v hv]

/-- A transaction that is being validated gets its write version. -/
theorem setWv_ok (hi : Inv s) {w : ℕ} (hx : s.state x ≠ .running)
    (hlt : s.rv x < s.counts.version) :
    Inv { s with wv := Function.update s.wv x w }
      ∧ ∀ v, Rely v s { s with wv := Function.update s.wv x w } := by
  refine ⟨⟨hi.rv_le, fun y hy => ?_, hi.decided_lt, hi.map_lt, hi.next_lt, hi.value_lt, hi.fresh⟩,
    fun v => ⟨⟨le_rfl, le_rfl, fun _ hx => hx, fun _ hx => hx, fun _ _ => rfl, fun _ _ => rfl,
      fun _ _ hn => hn⟩, fun hst => ⟨hst, ?_⟩, rfl, rfl, fun _ hu => hu⟩⟩
  · by_cases hyx : y = x
    · rw [hyx]
      exact hlt
    · have hwv : Function.update s.wv x w y = s.wv y := Function.update_of_ne hyx _ _
      exact hi.wv_lt y (hwv ▸ hy)
  · have hvx : v ≠ x := by
      rintro rfl
      exact hx hst
    exact Function.update_of_ne hvx _ _

/-- `txn_begin` is done. -/
theorem StepOk.begun (hi : Inv s) (hr : Ready s t) {counts : Active.Shared}
    (h : counts.version = s.counts.version) {rv : ℕ} (hrv : rv ≤ s.counts.version) :
    StepOk t s ({ s with
      counts := counts
      rv := Function.update s.rv t rv
      born := t :: s.born }, .ready) := by
  have hother : ∀ y, y ≠ t → Function.update s.rv t rv y = s.rv y :=
    fun y hy => Function.update_of_ne hy _ _
  have hself : Function.update s.rv t rv t = rv := Function.update_self _ _ _
  have hnot : ¬ s.Decided t := by
    rintro (hst | hst) <;> rw [hr.1.1] at hst <;> cases hst
  refine ⟨⟨fun y => ?_, fun y hy => ?_, fun y hy => ?_, hi.map_lt, hi.next_lt, hi.value_lt,
    hi.fresh⟩, ⟨hr.1, hr.2⟩, fun v hv => ⟨⟨h.ge, le_rfl, fun _ hx => hx, fun _ hx => hx,
      fun y hy => ?_, fun _ _ => rfl, fun _ _ hn => hn⟩, fun hst => ⟨hst, rfl⟩, hother v hv, rfl,
      fun _ hu => hu⟩⟩
  · show Function.update s.rv t rv y ≤ counts.version
    rw [h]
    by_cases hyt : y = t
    · rw [hyt, hself]
      exact hrv
    · rw [hother y hyt]
      exact hi.rv_le y
  · have hyt : y ≠ t := by
      rintro rfl
      exact hy hr.1.2
    show Function.update s.rv t rv y < counts.version
    rw [h, hother y hyt]
    exact hi.wv_lt y hy
  · have hyt : y ≠ t := by
      rintro rfl
      exact hnot hy
    show Function.update s.rv t rv y < counts.version
    rw [h, hother y hyt]
    exact hi.decided_lt y hy
  · have hyt : y ≠ t := by
      rintro rfl
      exact hy hr.1.1
    exact hother y hyt

end Stores

/-! ## The steps -/

section Steps

variable {s s' : Shared} {t x i : ℕ}

/-- The loop of `txn_validate` at a key. -/
theorem loopAt_ok (hx : s.state x ≠ .running ∧ s.rv x < s.counts.version) (i : ℕ) :
    StageOk s x (loopAt s x i) := by
  unfold loopAt
  split
  · exact hx
  · exact hx

/-- `validate_key` at a record. -/
theorem walkAt_ok (hx : s.state x ≠ .running ∧ s.rv x < s.counts.version) (i : ℕ) (v : Val) :
    StageOk s x (walkAt s x i v) := by
  cases v with
  | upd u => exact hx
  | dne | lit => exact loopAt_ok hx (i + 1)

/-- The head of the search loop of `txn_map_get`. -/
theorem getAt_ok (hr : Ready s t) (key : ℕ) (newest : Val) {v : Val}
    (hv : ∀ u, v = .upd u → u < s.brk) : Local s t (getAt key newest v) := by
  cases v with
  | upd u => exact ⟨hr, hv u rfl⟩
  | dne | lit => exact hr

/-- The search stops. -/
theorem collectAt_ok (hr : Ready s t) (key : ℕ) {u : ℕ} (newest : Val) (hu : u < s.brk) :
    Local s t (collectAt s key u newest) := by
  unfold collectAt
  split
  · exact hr
  all_goals
    split
    · exact ⟨hr, hu⟩
    · exact hr

/-- A validation that returns to its caller. -/
theorem returnTo_ok (hi : Inv s) (ho : Owns s t (s.writes t)) (hd : s.Decided x)
    {stack : List Frame} (hst : StackOk s t x stack) (r : State) :
    Local s t (returnTo s r stack) := by
  cases stack with
  | nil => trivial
  | cons frame stack =>
    cases frame with
    | key y i u w =>
      obtain ⟨hy, hrest⟩ := hst
      simp only [returnTo]
      split
      · exact ⟨ho, walkAt_ok hy i _, hrest⟩
      · exact ⟨ho, hy, hrest⟩
    | get key u w newest =>
      obtain ⟨hrun, hu⟩ := hst
      simp only [returnTo]
      split
      · exact getAt_ok ⟨hrun, ho⟩ key newest fun n hn => hi.next_lt u n hn
      · exact ⟨⟨hrun, ho⟩, hu⟩
    | commit =>
      have hxt : x = t := hst
      subst hxt
      exact ⟨ho, hi.decided_lt x hd⟩

/-- What a step of `txn_validate(x)` leads to. -/
def NextOk (s : Shared) (x : ℕ) : Next → Prop
  | .stay q => StageOk s x q
  | .help frame w =>
    (∃ i u, frame = .key x i u w) ∧ (s.state x ≠ .running ∧ s.rv x < s.counts.version)
      ∧ s.state w ≠ .running
  | .ret _ => s.Decided x
  | .fault => True

def StageStepOk (s : Shared) (x : ℕ) (r : Shared × Next) : Prop :=
  Inv r.1 ∧ (∀ v, Rely v s r.1) ∧ NextOk r.1 x r.2

/-- A step of `txn_validate` that reads only. -/
theorem StageStepOk.stay (hi : Inv s) {n : Next} (hn : NextOk s x n) : StageStepOk s x (s, n) :=
  ⟨hi, fun v => (Same.refl s).rely v, hn⟩

/-- A step of `txn_validate` that reads a verdict. -/
theorem StageStepOk.consult (hi : Inv s) (w : ℕ) {q : Stage} (hq : StageOk s x q) :
    StageStepOk s x (s.consult w, .stay q) := by
  have hfault : StepOk x s (s.consult w, .fault) := StepOk.consult hi w trivial
  have hsame := Same.consult s w
  exact ⟨hfault.1, fun v => hsame.rely v, hq.stable (hsame.rely x).grows⟩

/-- **One step of `txn_validate`.** -/
theorem stageStep_ok (hi : Inv s) {q : Stage} (hq : StageOk s x q) :
    StageStepOk s x (stageStep s x q) := by
  cases q with
  | switch =>
    simp only [stageStep]
    split
    · exact StageStepOk.stay hi hq
    · rename_i hst
      exact StageStepOk.consult hi x (Or.inl hst)
    · rename_i hst
      exact StageStepOk.consult hi x (Or.inr hst)
    · exact StageStepOk.stay hi trivial
  | needVersion =>
    simp only [stageStep]
    split
    · exact StageStepOk.stay hi hq
    · rename_i hwv
      exact StageStepOk.stay hi (loopAt_ok ⟨hq, hi.wv_lt x hwv⟩ 0)
  | add =>
    have hle : s.counts.version ≤ ({ s.counts with version := s.counts.version + 1 } :
      Active.Shared).version := Nat.le_succ _
    have hsame := Same.counts s hle
    exact ⟨hsame.inv hi hi.map_lt hi.next_lt, fun v => hsame.rely v, hq,
      Nat.lt_succ_of_le (hi.rv_le x)⟩
  | setVersion wv =>
    simp only [stageStep]
    split
    · obtain ⟨hi', hrely⟩ := setWv_ok (w := wv) hi hq.1 hq.2
      exact ⟨hi', hrely, loopAt_ok (s := { s with wv := Function.update s.wv x wv }) hq 0⟩
    · exact StageStepOk.stay hi (loopAt_ok hq 0)
  | mapGet i => exact StageStepOk.stay hi (walkAt_ok hq i _)
  | tag i u =>
    simp only [stageStep]
    split
    · refine StageStepOk.stay hi ?_
      show StageOk s x (if _ then _ else _)
      split
      · exact loopAt_ok hq (i + 1)
      · exact hq
    all_goals exact StageStepOk.stay hi hq
  | aborted i u =>
    simp only [stageStep]
    split
    · exact StageStepOk.stay hi (walkAt_ok hq i _)
    · exact StageStepOk.stay hi hq
  | writer i u =>
    simp only [stageStep]
    split
    · split
      · exact StageStepOk.stay hi (walkAt_ok hq i _)
      · exact StageStepOk.stay hi hq
    all_goals exact StageStepOk.stay hi trivial
  | writerState i u w =>
    simp only [stageStep]
    split
    · exact StageStepOk.stay hi (walkAt_ok hq i _)
    · rename_i hst
      exact StageStepOk.stay hi ⟨hq, by rw [hst]; simp⟩
    · exact StageStepOk.consult hi w (walkAt_ok hq i _)
    · exact StageStepOk.consult hi w hq
  | writerVersion i u w =>
    simp only [stageStep]
    split
    · exact StageStepOk.stay hi (walkAt_ok hq.1 i _)
    · exact StageStepOk.stay hi ⟨⟨i, u, rfl⟩, hq.1, hq.2⟩
  | compare i u w =>
    simp only [stageStep]
    refine StageStepOk.stay hi ?_
    show StageOk s x (if _ then _ else _)
    split
    · exact loopAt_ok hq (i + 1)
    · exact hq
  | storeAborted =>
    obtain ⟨hi', hrely, -⟩ := setState_ok hi (Or.inr rfl) hq.1 hq.2
    exact ⟨hi', hrely, (hrely x).grows.versioned hq⟩
  | check =>
    simp only [stageStep]
    split
    · exact StageStepOk.stay hi hq
    · rename_i hne
      refine StageStepOk.stay hi ?_
      have hrun := hq.1
      show s.Decided x
      unfold Shared.Decided
      cases hst : s.state x with
      | running => exact absurd hst hrun
      | validating => exact absurd hst hne
      | validated => exact Or.inl rfl
      | aborted => exact Or.inr rfl
  | storeValidated =>
    obtain ⟨hi', hrely, hdec⟩ := setState_ok hi (Or.inl rfl) hq.1 hq.2
    exact ⟨hi', hrely, hdec⟩
  | ret =>
    have hsame := Same.consult s x
    exact ⟨(StageStepOk.consult hi x hq).1, fun v => hsame.rely v, hsame.decided.mpr hq⟩

/-! ### The counting loops -/

/-- `sl_cas` returns the value it finds, or that there is none. -/
theorem slCas_ret {key expectation new ret : ℕ} {l l' : List (ℕ × ℕ)}
    (h : Active.slCas key expectation new l = some (ret, l')) :
    Active.slFind key l = some ret ∨ ret = doesNotExist := by
  unfold Active.slCas at h
  split at h
  · rename_i old hfind
    split_ifs at h <;> obtain ⟨rfl, -⟩ := Prod.mk.inj (Option.some.inj h) <;> exact Or.inl hfind
  · split_ifs at h <;> obtain ⟨rfl, -⟩ := Prod.mk.inj (Option.some.inj h) <;> exact Or.inr rfl

/-- A counting loop goes round: the version stays, and the thread is where it was or goes
on with the count that `sl_cas` returned. -/
theorem countCas_cases {c c' : Active.Shared} {rv old new : ℕ} {again p' : Active.Pc}
    {next : ℕ → Active.Pc} (h : Active.countCas c rv old new again next = (c', p')) :
    c'.version = c.version
      ∧ (p' = again ∨ ∃ n, (Active.slFind rv c.active = some n ∨ n = doesNotExist)
          ∧ p' = next (n % 2 ^ 32)) := by
  unfold Active.countCas at h
  split at h
  · obtain ⟨rfl, rfl⟩ := Prod.mk.inj h
    exact ⟨rfl, Or.inl rfl⟩
  · rename_i ret l hcas
    obtain ⟨rfl, rfl⟩ := Prod.mk.inj h
    exact ⟨rfl, Or.inr ⟨ret, slCas_ret hcas, rfl⟩⟩

/-- The loop of `txn_begin` on `active_`. -/
theorem begin_count {c' : Active.Shared} {p p' : Active.Pc} (hp : BeginOk p)
    (hfit : Fits t s (.begin p) .resume)
    (h : Active.step t s.counts p .resume = some (c', p')) :
    c'.version = s.counts.version ∧ (p' = .running s.counts.version ∨ BeginOk p') := by
  cases p with
  | beginVersion =>
    cases h
    exact ⟨rfl, Or.inr (show 0 < 2 ^ 32 - 1 by decide)⟩
  | beginCas rv old =>
    obtain ⟨hversion, hnext⟩ := countCas_cases (Option.some.inj h)
    refine ⟨hversion, Or.inr ?_⟩
    rcases hnext with rfl | ⟨n, hn, rfl⟩
    · exact hp
    · show BeginOk (if n % 2 ^ 32 = old then _ else _)
      split
      · trivial
      · -- the count that was found is not the largest
        have hlt : n % 2 ^ 32 < 2 ^ 32 := Nat.mod_lt _ (by decide)
        have hne : n % 2 ^ 32 ≠ 2 ^ 32 - 1 := by
          rcases hn with hn | rfl
          · exact hfit n hn
          · decide
        show n % 2 ^ 32 < 2 ^ 32 - 1
        omega
  | beginCheck rv =>
    have hrv : rv = s.counts.version := hfit
    simp only [Active.step, if_pos hrv, Option.some.injEq, Prod.mk.injEq] at h
    obtain ⟨rfl, rfl⟩ := h
    exact ⟨rfl, Or.inl (by rw [hrv])⟩
  | idle | undoCas | running | commitAdd | commitCas | commitVersion | commitRemove => cases hp

/-- The loop of `txn_commit` and `txn_abort` on `active_`. -/
theorem end_count {c' : Active.Shared} {p p' : Active.Pc} (hp : CountOk s p)
    (h : Active.step t s.counts p .resume = some (c', p')) :
    c'.version = s.counts.version ∧ (p' = .idle ∨ CountOk s p') := by
  cases p with
  | commitCas rv old =>
    obtain ⟨hversion, hnext⟩ := countCas_cases (Option.some.inj h)
    refine ⟨hversion, ?_⟩
    rcases hnext with rfl | ⟨n, -, rfl⟩
    · exact Or.inr hp
    · split_ifs with h₁ h₂
      · exact Or.inr hp.1
      · exact Or.inl rfl
      · exact Or.inr ⟨hp.1, Nat.mod_lt _ (by decide), h₁⟩
  | commitVersion rv old =>
    -- the read version is behind, so that the loop ends here
    have hlt : rv < s.counts.version := hp
    simp only [Active.step, if_pos hlt.ne, Option.some.injEq, Prod.mk.injEq] at h
    obtain ⟨rfl, rfl⟩ := h
    exact ⟨rfl, Or.inr trivial⟩
  | commitRemove rv =>
    cases h
    exact ⟨rfl, Or.inl rfl⟩
  | idle | beginVersion | beginCas | beginCheck | undoCas | running | commitAdd => cases hp

/-- A step of `txn_begin`. -/
theorem begin_ok (hi : Inv s) {p : Active.Pc} (hl : Local s t (.begin p))
    (hfit : Fits t s (.begin p) .resume) {r : Shared × Pc}
    (h : step t s (.begin p) .resume = some r) : StepOk t s r := by
  obtain ⟨hr, hp⟩ := hl
  simp only [step] at h
  split at h
  · rename_i counts rv hstep
    obtain ⟨hversion, hrun | hno⟩ := begin_count hp hfit hstep
    · cases h
      cases hrun
      exact StepOk.begun hi hr hversion le_rfl
    · exact absurd hno id
  · rename_i counts p' hnot hstep
    obtain ⟨hversion, hrun | hp'⟩ := begin_count hp hfit hstep
    · exact absurd (hrun ▸ rfl) (hnot s.counts.version)
    · cases h
      exact StepOk.counts hi hversion.ge ⟨hr, hp'⟩
  · cases h

/-- A step of the loop that takes the transaction out of `active_`. -/
theorem count_ok (hi : Inv s) {p : Active.Pc} (hl : Local s t (.count p)) {r : Shared × Pc}
    (h : step t s (.count p) .resume = some r) : StepOk t s r := by
  simp only [step] at h
  split at h
  · rename_i counts hstep
    cases h
    exact StepOk.counts hi (end_count hl hstep).1.ge trivial
  · rename_i counts p' hnot hstep
    obtain ⟨hversion, hidle | hp'⟩ := end_count hl hstep
    · exact absurd hidle hnot
    · cases h
      exact StepOk.counts hi hversion.ge hp'
  · cases h

/-! ### The calls -/

/-- A step of `txn_validate`, also of one that was called by another. -/
theorem validate_ok (hi : Inv s) {stack : List Frame} {q : Stage}
    (hl : Local s t (.validate x stack q)) {r : Shared × Pc}
    (h : step t s (.validate x stack q) .resume = some r) : StepOk t s r := by
  obtain ⟨ho, hq, hst⟩ := hl
  obtain ⟨hi', hrely, hnext⟩ := stageStep_ok hi hq
  have ho' := ho.writes_stable (hrely t)
  have hst' := hst.stable (hrely t)
  simp only [step] at h
  split at h <;> rename_i hstage <;> rw [hstage] at hi' hrely hnext ho' hst' <;> cases h
  · exact ⟨hi', ⟨ho', hnext, hst'⟩, fun v _ => hrely v⟩
  · obtain ⟨⟨i, u, rfl⟩, hx, hw⟩ := hnext
    exact ⟨hi', ⟨ho', hw, hx, hst'⟩, fun v _ => hrely v⟩
  · exact ⟨hi', returnTo_ok hi' ho' hnext hst' _, fun v _ => hrely v⟩
  · exact ⟨hi', trivial, fun v _ => hrely v⟩

/-- A call on the transaction begins. -/
theorem ready_ok (hi : Inv s) {c : Cmd} (hl : Local s t .ready) {r : Shared × Pc}
    (h : step t s .ready c = some r) : StepOk t s r := by
  cases c with
  | set key value =>
    simp only [step] at h
    split_ifs at h with hvalue
    cases h
    exact StepOk.stay hi ⟨hl, hvalue⟩
  | get key =>
    cases h
    exact StepOk.stay hi hl
  | commit =>
    cases h
    exact StepOk.stay hi hl
  | abort =>
    cases h
    exact StepOk.stay hi hl.2
  | _ => cases h

/-- The CAS of the new record in front of the list. -/
theorem setCas_ok {key value u : ℕ} {old : Val} (hi : Inv s) {c : Cmd}
    (hl : Local s t (.setCas key value u old)) {r : Shared × Pc}
    (h : step t s (.setCas key value u old) c = some r) : StepOk t s r := by
  obtain ⟨hr, howner, hnot, hu, hold⟩ := hl
  cases c with
  | resume =>
    simp only [step] at h
    split_ifs at h
    · cases h
      exact StepOk.push hi hr howner hnot hu hold
    · cases h
      exact StepOk.setNext hi hold ⟨hr, howner, hnot, hu, fun w hw => hi.map_lt key w hw⟩
  | _ => cases h

/-- `txn_commit` has its verdict. -/
theorem commitVerdict_ok (hi : Inv s) {c : Cmd} (hl : Local s t .commitVerdict) {r : Shared × Pc}
    (h : step t s .commitVerdict c = some r) : StepOk t s r := by
  cases c with
  | resume =>
    simp only [step] at h
    split_ifs at h <;> cases h <;> exact StepOk.consult hi t hl
  | _ => cases h

/-- `txn_commit` writes the version of a record. -/
theorem detach_ok {v : Ver} {ws : List (ℕ × ℕ)} (hi : Inv s) {c : Cmd}
    (hl : Local s t (.detach v ws)) {r : Shared × Pc} (h : step t s (.detach v ws) c = some r) :
    StepOk t s r := by
  cases ws with
  | nil =>
    cases c <;> cases h
    exact StepOk.stay hi ⟨hl.2, by decide, by decide⟩
  | cons p ws =>
    obtain ⟨k, u⟩ := p
    cases c <;> cases h
    obtain ⟨hi', ho, hrely⟩ := setVersion_ok hi v hl.1
    exact ⟨hi', ⟨ho, hl.2⟩, hrely⟩

/-- `txn_abort` marks a record. -/
theorem abort_ok {ws : List (ℕ × ℕ)} (hi : Inv s) {c : Cmd} (hl : Local s t (.abort ws))
    {r : Shared × Pc} (h : step t s (.abort ws) c = some r) : StepOk t s r := by
  cases ws with
  | nil =>
    cases c <;> cases h
    exact StepOk.stay hi trivial
  | cons p ws =>
    obtain ⟨k, u⟩ := p
    cases c <;> cases h
    obtain ⟨hi', ho, hrely⟩ := setVersion_ok hi .aborted hl
    exact ⟨hi', ho, hrely⟩

/-- `txn_map_get` looks at the version of a record. -/
theorem getTag_ok {key u : ℕ} {newest : Val} (hi : Inv s) {c : Cmd}
    (hl : Local s t (.getTag key u newest)) {r : Shared × Pc}
    (h : step t s (.getTag key u newest) c = some r) : StepOk t s r := by
  obtain ⟨hr, hu⟩ := hl
  cases c with
  | resume =>
    simp only [step] at h
    split at h
    · split at h <;> cases h
      · exact StepOk.stay hi (collectAt_ok hr key newest hu)
      · exact StepOk.stay hi (getAt_ok hr key newest fun n hn => hi.next_lt u n hn)
    all_goals
      cases h
      exact StepOk.stay hi ⟨hr, hu⟩
  | _ => cases h

/-- An aborted record is skipped. -/
theorem getAborted_ok {key u : ℕ} {newest : Val} (hi : Inv s) {c : Cmd}
    (hl : Local s t (.getAborted key u newest)) {r : Shared × Pc}
    (h : step t s (.getAborted key u newest) c = some r) : StepOk t s r := by
  obtain ⟨hr, hu⟩ := hl
  cases c with
  | resume =>
    simp only [step] at h
    split at h <;> cases h
    · exact StepOk.stay hi (getAt_ok hr key newest fun n hn => hi.next_lt u n hn)
    · exact StepOk.stay hi ⟨hr, hu⟩
  | _ => cases h

/-- `txn_map_get` follows a tagged version to its transaction. -/
theorem getWriter_ok {key u : ℕ} {newest : Val} (hi : Inv s) {c : Cmd}
    (hl : Local s t (.getWriter key u newest)) {r : Shared × Pc}
    (h : step t s (.getWriter key u newest) c = some r) : StepOk t s r := by
  obtain ⟨hr, hu⟩ := hl
  cases c with
  | resume =>
    simp only [step] at h
    split at h
    · split at h <;> cases h
      · exact StepOk.stay hi (collectAt_ok hr key newest hu)
      · exact StepOk.stay hi ⟨hr, hu⟩
    all_goals
      cases h
      exact StepOk.stay hi trivial
  | _ => cases h

/-- `txn_map_get` reads the state of the writer. -/
theorem getState_ok {key u w : ℕ} {newest : Val} (hi : Inv s) {c : Cmd}
    (hl : Local s t (.getState key u w newest)) {r : Shared × Pc}
    (h : step t s (.getState key u w newest) c = some r) : StepOk t s r := by
  obtain ⟨hr, hu⟩ := hl
  have hnext : Local s t (getAt key newest (s.record u).next) :=
    getAt_ok hr key newest fun n hn => hi.next_lt u n hn
  cases c with
  | resume =>
    simp only [step] at h
    split at h <;> cases h
    · exact StepOk.stay hi hnext
    · rename_i hst
      exact StepOk.stay hi ⟨hr, hu, by rw [hst]; simp⟩
    · exact StepOk.consult hi w hnext
    · exact StepOk.consult hi w ⟨hr, hu⟩
  | _ => cases h

/-- `txn_map_get` reads the version of a writer in validation. -/
theorem getVersion_ok {key u w : ℕ} {newest : Val} (hi : Inv s) {c : Cmd}
    (hl : Local s t (.getVersion key u w newest)) {r : Shared × Pc}
    (h : step t s (.getVersion key u w newest) c = some r) : StepOk t s r := by
  obtain ⟨hr, hu, hw⟩ := hl
  cases c with
  | resume =>
    simp only [step] at h
    split at h <;> cases h
    · exact StepOk.stay hi (getAt_ok hr key newest fun n hn => hi.next_lt u n hn)
    · exact StepOk.stay hi ⟨hr.2, hw, hr.1, hu⟩
  | _ => cases h

/-- `txn_map_get` compares the version of the writer with its own. -/
theorem getCompare_ok {key u w : ℕ} {newest : Val} (hi : Inv s) {c : Cmd}
    (hl : Local s t (.getCompare key u w newest)) {r : Shared × Pc}
    (h : step t s (.getCompare key u w newest) c = some r) : StepOk t s r := by
  obtain ⟨hr, hu⟩ := hl
  cases c with
  | resume =>
    simp only [step] at h
    split at h <;> cases h
    · exact StepOk.stay hi (getAt_ok hr key newest fun n hn => hi.next_lt u n hn)
    · exact StepOk.stay hi (collectAt_ok hr key newest hu)
  | _ => cases h

/-- The collector looks at the version of the next record. -/
theorem collectVersion_ok {n min : ℕ} (hi : Inv s) {c : Cmd}
    (hl : Local s t (.collectVersion n min)) {r : Shared × Pc}
    (h : step t s (.collectVersion n min) c = some r) : StepOk t s r := by
  cases c with
  | resume =>
    simp only [step] at h
    split at h <;> cases h <;> exact StepOk.stay hi hl
  | _ => cases h

/-- The collector frees the records that follow. -/
theorem collectFree_ok {temp : ℕ} (hi : Inv s) {c : Cmd} (hl : Local s t (.collectFree temp))
    {r : Shared × Pc} (h : step t s (.collectFree temp) c = some r) : StepOk t s r := by
  have hdne : ∀ n, Val.dne = .upd n → n < s.brk := fun n hn => by cases hn
  have hset : StepOk t s (s.setNext temp .dne, .ready) := StepOk.setNext hi hdne hl
  cases c with
  | resume =>
    simp only [step] at h
    split at h <;> cases h
    · exact hset
    all_goals
      have hsame : Same s { s.setNext temp .dne with freed := temp :: s.freed } := by
        have hnext := Same.setNext s temp .dne
        exact ⟨le_rfl, rfl, rfl, rfl, rfl, rfl, hnext.recordVersion, hnext.recordValue⟩
      exact StepOk.same hi hsame hi.map_lt (fun _ _ => setNext_next hi hdne) hl
  | _ => cases h

/-- Is the record older than every active transaction? -/
theorem mergeVersion_ok {key u min : ℕ} (hi : Inv s) {c : Cmd}
    (hl : Local s t (.mergeVersion key u min)) (hfit : Fits t s (.mergeVersion key u min) c)
    {r : Shared × Pc} (h : step t s (.mergeVersion key u min) c = some r) : StepOk t s r := by
  cases c with
  | resume =>
    simp only [step] at h
    split at h <;> cases h
    · rename_i hle
      exact StepOk.stay hi ⟨hl.1, hl.2, hfit hle⟩
    · exact StepOk.stay hi hl.1
  | _ => cases h

/-- The CAS of the literal over the last record. -/
theorem mergeCas_ok {key u : ℕ} (hi : Inv s) {c : Cmd} (hl : Local s t (.mergeCas key u))
    {r : Shared × Pc} (h : step t s (.mergeCas key u) c = some r) : StepOk t s r := by
  obtain ⟨hr, hu, hvalue⟩ := hl
  cases c with
  | resume =>
    simp only [step, if_neg hvalue] at h
    split at h <;> cases h
    · exact StepOk.merge hi hr
    · exact StepOk.stay hi hr
  | _ => cases h

/-- **The step lemma**, by program counter. -/
theorem step_guarantee (hi : Inv s) {pc : Pc} {c : Cmd} (hl : Local s t pc)
    (hfit : Fits t s pc c) {r : Shared × Pc} (h : step t s pc c = some r) : StepOk t s r := by
  cases pc with
  | unborn =>
    cases c <;> cases h
    exact StepOk.stay hi ⟨hl, trivial⟩
  | begin p =>
    cases c with
    | resume => exact begin_ok hi hl hfit h
    | _ => cases h
  | ready => exact ready_ok hi hl h
  | setGet key value =>
    cases c <;> cases h
    exact StepOk.alloc hi hl.1 hl.2
  | setCas key value u old => exact setCas_ok hi hl h
  | commitState =>
    cases c <;> cases h
    exact StepOk.setValidating hi hl
  | validate x stack q =>
    cases c with
    | resume => exact validate_ok hi hl h
    | _ => cases h
  | commitVerdict => exact commitVerdict_ok hi hl h
  | commitVersion =>
    cases c <;> cases h
    exact StepOk.stay hi hl
  | detach v ws => exact detach_ok hi hl h
  | count p =>
    cases c with
    | resume => exact count_ok hi hl h
    | _ => cases h
  | abort ws => exact abort_ok hi hl h
  | getMap key =>
    cases c <;> cases h
    exact StepOk.stay hi (getAt_ok hl key _ fun u hu => hi.map_lt key u hu)
  | getTag key u newest => exact getTag_ok hi hl h
  | getAborted key u newest => exact getAborted_ok hi hl h
  | getWriter key u newest => exact getWriter_ok hi hl h
  | getState key u w newest => exact getState_ok hi hl h
  | getVersion key u w newest => exact getVersion_ok hi hl h
  | getCompare key u w newest => exact getCompare_ok hi hl h
  | collectMin u n =>
    cases c <;> cases h
    exact StepOk.stay hi hl
  | collectVersion n min => exact collectVersion_ok hi hl h
  | collectFree temp => exact collectFree_ok hi hl h
  | mergeMin key u =>
    cases c <;> cases h
    exact StepOk.stay hi hl
  | mergeVersion key u min => exact mergeVersion_ok hi hl hfit h
  | mergeCas key u => exact mergeCas_ok hi hl h
  | finished => cases c <;> cases h
  | fault => cases c <;> cases h

end Steps

/-! ## Whole runs -/

section Runs

variable {addr : ℕ → ℕ} {c c' d : Conf Shared Pc} {e : ℕ × Cmd} {es : List (ℕ × Cmd)}

/-- **Every thread keeps what the others rely on.** -/
theorem relyGuarantee : RelyGuarantee TxnSteps.step Fits Inv (fun t s pc => Local s t pc) Rely where
  guarantee := fun _ _ _ _ _ _ hi hl hfit h => step_guarantee hi hl hfit h
  stable := fun _ _ _ _ _ hr hl => hl.stable hr

/-- The invariant of a configuration. -/
def Good (c : Conf Shared Pc) : Prop := c.Holds Inv fun t s pc => Local s t pc

/-- It holds at the start. -/
theorem init_good : Good TxnSteps.init := by
  have hdec : ∀ x, ¬ TxnSteps.init.shared.Decided x := fun x hx => by
    rcases hx with hx | hx <;> cases hx
  have hready : ∀ t, Ready TxnSteps.init.shared t := fun t =>
    ⟨⟨rfl, rfl⟩, List.nodup_nil, fun p hp => absurd hp List.not_mem_nil⟩
  refine ⟨⟨fun _ => Nat.zero_le _, fun x hx => absurd rfl hx, fun x hx => absurd hx (hdec x), ?_, ?_,
    fun _ => Nat.two_pow_pos 62, fun _ _ => rfl⟩, hready⟩
  · intro k u hu
    cases hu
  · intro u w hw
    cases hw

/-- The version of a committed record is final. -/
theorem num_step (hc : Good c) (hfit : onThread Fits c e) (hstep : TxnSteps.sys c e = some c')
    {u n : ℕ} (hn : (c.shared.record u).version = .num n) :
    (c'.shared.record u).version = .num n := by
  obtain ⟨k', hprog, -⟩ := interleave_eq_some.mp hstep
  obtain ⟨-, -, hrely⟩ := step_guarantee hc.1 (hc.2 e.1) hfit hprog
  exact (hrely (e.1 + 1) (Nat.succ_ne_self _)).grows.num u n hn

/-- **A version that was written** stays. -/
theorem num_run (hc : Good c) (hfit : StepsMeet TxnSteps.sys (onThread Fits) c es)
    (hrun : run TxnSteps.sys c es = some c') {u n : ℕ}
    (hn : (c.shared.record u).version = .num n) : (c'.shared.record u).version = .num n := by
  have hkeep : ∀ d e d', Good d ∧ (d.shared.record u).version = .num n → onThread Fits d e →
      TxnSteps.sys d e = some d' → Good d' ∧ (d'.shared.record u).version = .num n :=
    fun d e d' hd hok hstep =>
      ⟨relyGuarantee.holds_step hd.1 hok hstep, num_step hd.1 hok hstep hd.2⟩
  exact (run_invariant hkeep ⟨hc, hn⟩ hfit hrun).2

/-! ### The invariant tells that the assertions hold -/

/-- The count that `txn_begin` stores is not 0 where the old one is below the bound. -/
theorem incr_pos {old : ℕ} (h : old < 2 ^ 32 - 1) : 0 < Active.incr old := by
  unfold Active.incr
  omega

/-- The count that is stored at the end is not 0 where the old one is not 1. -/
theorem decr_pos {old : ℕ} (hlt : old < 2 ^ 32) (hne : old ≠ 1) : 0 < Active.decr old := by
  unfold Active.decr
  omega

/-- The word for a record is a legal value of the map. -/
theorem storable_word (haddr : ∀ u, addr u < 2 ^ 62 - 1) (u : ℕ) :
    Storable (word addr (.upd u)) := by
  have hlt := haddr u
  have hor : 2 ^ 62 + addr u = 2 ^ 62 ||| addr u := by
    have := Nat.two_pow_add_eq_or_of_lt (i := 62) (b := addr u) (by omega) 1
    rwa [Nat.mul_one] at this
  have hword : word addr (.upd u) = 2 ^ 62 + addr u := hor.symm
  refine ⟨?_, ?_, ?_⟩ <;> rw [hword]
  · show 2 ^ 62 + addr u ≠ 0
    omega
  · omega
  · omega

/-- **No assertion fails** in a good state. -/
theorem Good.asserted (haddr : ∀ u, addr u < 2 ^ 62 - 1) (hc : Good c) (t : ℕ) :
    Asserted addr c.shared (c.thread t) := by
  have hl := hc.2 t
  cases hpc : c.thread t with
  | begin p =>
    rw [hpc] at hl
    cases p with
    | beginCas rv old => exact incr_pos hl.2
    | undoCas => exact absurd hl.2 id
    | _ => trivial
  | count p =>
    rw [hpc] at hl
    cases p with
    | commitCas rv old => exact decr_pos hl.2.1 hl.2.2
    | _ => trivial
  | setCas key value u old => exact storable_word haddr u
  | mergeCas key u =>
    rw [hpc] at hl
    have hlt := hc.1.value_lt u
    exact ⟨hl.2.2, by omega, by omega⟩
  | validate x stack q =>
    rw [hpc] at hl
    obtain ⟨-, hq, -⟩ := hl
    cases q with
    | switch => exact hq
    | mapGet i => exact hq.1
    | ret => exact hq
    | _ => trivial
  | _ => trivial

/-! ### A step that does not meet the condition leads to an assertion that fails -/

/-- The largest count wraps. -/
theorem incr_max : Active.incr (2 ^ 32 - 1) = 0 := by decide

/-- The count 1 becomes 0. -/
theorem decr_one : Active.decr 1 = 0 := by decide

/-- `sl_cas` returns the count that is there. -/
theorem slCas_of_found {key expectation new n : ℕ} {l : List (ℕ × ℕ)}
    (h : Active.slFind key l = some n) (hn : n ≠ doesNotExist) :
    ∃ l', Active.slCas key expectation new l = some (n, l') := by
  unfold Active.slCas
  simp only [h, if_neg hn]
  split
  · exact ⟨l, rfl⟩
  · exact ⟨_, rfl⟩

/-- Where the assertion of `sl_cas` holds the count is below the bound. -/
theorem fits_beginCas {s : Shared} {t rv old : ℕ} {r : Shared × Pc}
    (hasserted : Asserted addr s (.begin (.beginCas rv old)))
    (hstep : TxnSteps.step t s (.begin (.beginCas rv old)) .resume = some r)
    (hnext : Asserted addr r.1 r.2) : Fits t s (.begin (.beginCas rv old)) .resume := by
  intro n hn hmax
  have hne : n ≠ doesNotExist := by
    rintro rfl
    exact absurd hmax (by decide)
  obtain ⟨l', hcas⟩ : ∃ l', Active.slCas _ old (Active.incr old) _ = some (n, l') :=
    slCas_of_found hn hne
  have hold : n % 2 ^ 32 ≠ old := by
    intro heq
    have hpos : 0 < Active.incr old := hasserted
    rw [← heq, hmax, incr_max] at hpos
    exact absurd hpos (lt_irrefl 0)
  simp only [TxnSteps.step, Active.step, Active.countCas, hcas, if_neg hold, Option.some.injEq]
    at hstep
  rw [← hstep, hmax] at hnext
  have hpos : 0 < Active.incr (2 ^ 32 - 1) := hnext
  rw [incr_max] at hpos
  exact absurd hpos (lt_irrefl 0)

/-- Where no assertion fails before a step and after it, the step meets the condition. -/
theorem fits_of_asserted (hbefore : Asserted addr c.shared (c.thread e.1))
    (hstep : TxnSteps.sys c e = some c') (hafter : Asserted addr c'.shared (c'.thread e.1)) :
    onThread Fits c e := by
  obtain ⟨t, cmd⟩ := e
  obtain ⟨k', hprog, hthr⟩ := interleave_eq_some.mp hstep
  have hself : c'.thread t = k' := by
    rw [hthr]
    exact Function.update_self _ _ _
  rw [hself] at hafter
  simp only at hprog hbefore
  show Fits t c.shared (c.thread t) cmd
  cases hpc : c.thread t with
  | begin p =>
    rw [hpc] at hprog hbefore
    cases cmd with
    | resume =>
      cases p with
      | beginCas rv old => exact fits_beginCas hbefore hprog hafter
      | beginCheck rv =>
        -- the count would be lowered to 0
        by_contra hne
        have hrv : ¬ rv = c.shared.counts.version := hne
        simp only [TxnSteps.step, Active.step, if_neg hrv, Option.some.injEq, Prod.mk.injEq]
          at hprog
        rw [← hprog.2] at hafter
        have hpos : 0 < Active.decr 1 := hafter
        rw [decr_one] at hpos
        exact absurd hpos (lt_irrefl 0)
      | _ => trivial
    | _ => trivial
  | mergeVersion key u min =>
    rw [hpc] at hprog
    cases cmd with
    | resume =>
      intro hle hzero
      simp only [TxnSteps.step, if_pos hle, Option.some.injEq, Prod.mk.injEq] at hprog
      rw [← hprog.2, ← hprog.1] at hafter
      exact hafter.1 hzero
    | _ => trivial
  | _ => trivial

/-! ### The assertions -/

/-- No assertion fails on the way: not in a step, and not in the loop of `txn_map_get`
over aborted records, which a record that has been found old enough never enters. -/
def NeverFails (addr : ℕ → ℕ) (es : List (ℕ × Cmd)) : Prop :=
  ∀ pre post d, es = pre ++ post → run TxnSteps.sys TxnSteps.init pre = some d →
    (∀ t, Asserted addr d.shared (d.thread t))
      ∧ ∀ t n min, d.thread t = .collectVersion n min → (d.shared.record n).version.lt min = true →
          ∀ mid post' d', post = mid ++ post' → run TxnSteps.sys d mid = some d' →
            (d'.shared.record n).version ≠ .aborted

/-- Steps that meet the condition fail no assertion. -/
theorem NeverFails.of_fits (haddr : ∀ u, addr u < 2 ^ 62 - 1)
    (hfit : StepsMeet TxnSteps.sys (onThread Fits) TxnSteps.init es) : NeverFails addr es := by
  rintro pre post d rfl hrun
  have hgood : Good d := relyGuarantee.holds_run init_good hfit.of_append_left hrun
  refine ⟨hgood.asserted haddr, ?_⟩
  rintro t n min - hlt mid post' d' rfl hrun'
  have hrest := (hfit.of_append hrun).of_append_left
  cases hver : (d.shared.record n).version with
  | num m =>
    rw [num_run hgood hrest hrun' hver]
    simp
  | aborted =>
    rw [hver] at hlt
    cases hlt
  | owner w =>
    rw [hver] at hlt
    cases hlt

/-- A run without a failed assertion meets the condition. -/
theorem fits_of_run (hrun : run TxnSteps.sys c es = some c')
    (hall : ∀ pre post d, es = pre ++ post → run TxnSteps.sys c pre = some d →
      ∀ t, Asserted addr d.shared (d.thread t)) :
    StepsMeet TxnSteps.sys (onThread Fits) c es := by
  induction es generalizing c with
  | nil => trivial
  | cons e es ih =>
    obtain ⟨c₁, hstep, hrest⟩ := run_cons_eq_some.mp hrun
    have hbefore := hall [] (e :: es) c rfl rfl e.1
    have hafter : ∀ pre post d, es = pre ++ post → run TxnSteps.sys c₁ pre = some d →
        ∀ t, Asserted addr d.shared (d.thread t) := by
      rintro pre post d rfl hpre
      exact hall (e :: pre) post d rfl (run_cons_eq_some.mpr ⟨c₁, hstep, hpre⟩)
    refine ⟨fits_of_asserted hbefore hstep (hafter [] es c₁ rfl rfl e.1), fun c₂ hc₂ => ?_⟩
    obtain rfl : c₁ = c₂ := Option.some.inj (hstep.symm.trans hc₂)
    exact ih hrest hafter

/-- **No assertion fails** in a run exactly when no step of it goes to one of the three
branches: `txn_begin` lowering a count again, `txn_begin` finding the largest count,
`txn_map_get` merging a record whose value is `DOES_NOT_EXIST`. -/
theorem never_fails_iff_fits (addr : ℕ → ℕ) (haddr : ∀ u, addr u < 2 ^ 62 - 1)
    (es : List (ℕ × Cmd)) (c : Conf Shared Pc)
    (hrun : run TxnSteps.sys TxnSteps.init es = some c) :
    NeverFails addr es ↔ StepsMeet TxnSteps.sys (onThread Fits) TxnSteps.init es := by
  constructor
  · intro h
    exact fits_of_run hrun fun pre post d heq hpre => (h pre post d heq hpre).1
  · exact NeverFails.of_fits haddr

end Runs

/-! ### Runs -/

/-- Where the records may lie. -/
def slot (u : ℕ) : ℕ := 16 * (u % 2 ^ 32 + 1)

/-- The addresses are small enough for two tag bits. -/
theorem slot_lt (u : ℕ) : slot u < 2 ^ 62 - 1 := by
  unfold slot
  omega

/-- Transaction `t` takes `n` steps. -/
def steps (t n : ℕ) : List (ℕ × Cmd) := List.replicate n (t, .resume)

/-- A transaction sets key 5 to `value` and commits; the next one reads key 5. -/
def mergeRun (value : ℕ) : List (ℕ × Cmd) :=
  [(0, Cmd.begin)] ++ steps 0 3 ++ [(0, Cmd.set 5 value)] ++ steps 0 2 ++ [(0, Cmd.commit)]
    ++ steps 0 19 ++ [(1, Cmd.begin)] ++ steps 1 3 ++ [(1, Cmd.get 5)] ++ steps 1 4

/-- A transaction commits between the two reads of `version_` in the `txn_begin` of another. -/
def lowerRun : List (ℕ × Cmd) :=
  [(0, Cmd.begin), (0, Cmd.resume), (1, Cmd.begin)] ++ steps 1 3 ++ [(1, Cmd.commit)] ++ steps 1 6
    ++ steps 0 3

/-- A run with a merge. -/
theorem never_fails_iff_fits_merged : NeverFails slot (mergeRun 7) := by
  have hsome : (run TxnSteps.sys TxnSteps.init (mergeRun 7)).isSome = true := by decide +kernel
  obtain ⟨c, hrun⟩ := Option.isSome_iff_exists.mp hsome
  exact (never_fails_iff_fits slot slot_lt (mergeRun 7) c hrun).mpr (by decide +kernel)

/-- Merging the value `DOES_NOT_EXIST` trips `ht_cas`, lowering a count that is 1 trips
`sl_cas`. -/
theorem assertions_fail :
    (∃ c, run TxnSteps.sys TxnSteps.init (mergeRun 0) = some c ∧ c.thread 1 = .mergeCas 5 0
        ∧ ¬ NeverFails slot (mergeRun 0))
      ∧ ∃ c, run TxnSteps.sys TxnSteps.init lowerRun = some c ∧ c.thread 0 = .begin (.undoCas 1 1)
        ∧ ¬ NeverFails slot lowerRun := by
  constructor
  · have hmap : ((run TxnSteps.sys TxnSteps.init (mergeRun 0)).map fun c =>
        (c.thread 1, (c.shared.record 0).value)) = some (.mergeCas 5 0, doesNotExist) := by
      decide +kernel
    obtain ⟨c, hrun, heq⟩ := Option.map_eq_some_iff.mp hmap
    obtain ⟨hpc, hvalue⟩ := Prod.mk.inj heq
    refine ⟨c, hrun, hpc, fun h => ?_⟩
    have hasserted := (h (mergeRun 0) [] c (List.append_nil _).symm hrun).1 1
    rw [hpc] at hasserted
    exact hasserted.1 hvalue
  · have hmap : ((run TxnSteps.sys TxnSteps.init lowerRun).map fun c => c.thread 0)
        = some (.begin (.undoCas 1 1)) := by
      decide +kernel
    obtain ⟨c, hrun, hpc⟩ := Option.map_eq_some_iff.mp hmap
    refine ⟨c, hrun, hpc, fun h => ?_⟩
    have hasserted := (h lowerRun [] c (List.append_nil _).symm hrun).1 0
    rw [hpc] at hasserted
    have hpos : 0 < Active.decr 1 := hasserted
    rw [decr_one] at hpos
    exact absurd hpos (lt_irrefl 0)

end TxnAsserts
