/-
# Every participant finds the same verdict

The steps of `Ssr.TxnSteps`, one by one: each of them keeps the invariant of
`Ssr.TxnAgreement`, and no other thread loses what it relies on.

* `walkAt_ok`, `At.stop`, `At.conflict` — the three ways `validate_key` goes on;
* `stageStep_ok` — one step of `txn_validate`;
* `step_guarantee` — one step of a transaction;
* `commit_verdict_agreed` — whole runs.
-/
import Ssr.TxnAgreement

open Interleaving Map Txn

namespace TxnSteps

/-! ## The walk of validate_key -/

section Walk

variable {s : Shared} {x i u : ℕ}

theorem keyAt_mem (hlt : i < (s.writes x).length) : ∃ r, (s.keyAt x i, r) ∈ s.writes x := by
  refine ⟨((s.writes x).getD i (0, 0)).2, ?_⟩
  show (s.writes x).getD i (0, 0) ∈ s.writes x
  rw [List.getD_eq_getElem?_getD, List.getElem?_eq_getElem hlt, Option.getD_some]
  exact List.getElem_mem hlt

theorem KeysPassed.of_upto {n : ℕ} (hlen : (s.writes x).length ≤ n)
    (hup : ∀ j, j < n → Passed s x (s.keyAt x j)) : KeysPassed s x := by
  intro p hp
  obtain ⟨j, hj, rfl⟩ := List.mem_iff_getElem.mp hp
  have hkey : s.keyAt x j = ((s.writes x)[j]).1 := by
    unfold Shared.keyAt
    rw [List.getD_eq_getElem?_getD, List.getElem?_eq_getElem hj, Option.getD_some]
  rw [← hkey]
  exact hup j (hj.trans_le hlen)

/-- The head of the loop over the write set. -/
theorem loopAt_ok (hv : Versioned s x) (hup : Upto s x i) : StageOk s x (loopAt s x i) := by
  unfold loopAt
  split_ifs with hlt
  · exact ⟨hv, hlt, hup⟩
  · refine ⟨hv, hup.imp id fun h => ?_⟩
    exact KeysPassed.of_upto (Nat.le_of_not_lt hlt) h

theorem Upto.succ (hup : Upto s x i) (hp : ¬ s.Decided x → Passed s x (s.keyAt x i)) :
    Upto s x (i + 1) := by
  by_cases hd : s.Decided x
  · exact Or.inl hd
  · have hall := hup.resolve_left hd
    refine Or.inr fun j hj => ?_
    rcases Nat.lt_succ_iff_lt_or_eq.mp hj with hj | rfl
    · exact hall j hj
    · exact hp hd

/-- A transaction that committed at or below the read version is in nobody's way. -/
theorem Harmless.of_committed {y : ℕ} (hwv : s.wv y ≠ undeterminedVersion)
    (hle : s.wv y ≤ s.rv x) : Harmless s x y := by
  refine Or.inr (Or.inr (Or.inr fun w hw => Or.inl ?_))
  rcases hw with ⟨h0, _⟩ | ⟨_, rfl⟩
  · exact absurd h0 hwv
  · exact hle

/-- What was merged into the map is old for every transaction without verdict. -/
theorem Inv.merged_harmless (hi : Inv s) (hx : x ∈ s.born) (hd : ¬ s.Decided x)
    (hu : u ∈ s.merged) : Harmless s x (s.author u) := by
  obtain ⟨k, n, hk, hn, hold⟩ := hi.merged_num u hu
  obtain ⟨hval, hwv⟩ := hi.num_validated k u hk n hn
  refine Harmless.of_committed (hi.decided_wv _ (Or.inl hval)) ?_
  rw [hwv]
  exact hold x hx hd

/-- The head of the loop of `validate_key`: the records in front are harmless, the rest
begins with the word at hand. -/
theorem walkAt_ok (hi : Inv s) (hv : Versioned s x) (hlt : i < (s.writes x).length)
    (hup : Upto s x i) {pre rest : List ℕ} (heq : s.hist (s.keyAt x i) = pre ++ rest)
    (hpre : ∀ r ∈ pre, Harmless s x (s.author r)) {v : Val}
    (hrest : (∃ r post, v = .upd r ∧ rest = r :: post)
      ∨ ((∀ r, v ≠ .upd r) ∧ ∀ r ∈ rest, r ∈ s.merged)) : StageOk s x (walkAt s x i v) := by
  rcases hrest with ⟨r, post, rfl, rfl⟩ | ⟨hno, hmer⟩
  · exact ⟨hv, hlt, hup, pre, post, heq, hpre⟩
  · have hup' : Upto s x (i + 1) := by
      refine hup.succ fun hd r hr => ?_
      rw [heq] at hr
      rcases List.mem_append.mp hr with hr | hr
      · exact hpre r hr
      · exact hi.merged_harmless hv.1.1 hd (hmer r hr)
    cases v with
    | upd r => exact absurd rfl (hno r)
    | dne => exact loopAt_ok hv hup'
    | lit n => exact loopAt_ok hv hup'

/-- `validate_key` skips a record that is harmless. -/
theorem At.skip (hi : Inv s) (ha : At s x i u) (hh : Harmless s x (s.author u)) :
    StageOk s x (walkAt s x i (s.record u).next) := by
  obtain ⟨hv, hlt, hup, pre, post, heq, hpre⟩ := ha
  have heq' : s.hist (s.keyAt x i) = (pre ++ [u]) ++ post := by
    rw [heq, List.append_assoc]
    rfl
  refine walkAt_ok hi hv hlt hup heq' (fun r hr => ?_) (hi.next_hist _ pre u post heq)
  rcases List.mem_append.mp hr with hr | hr
  · exact hpre r hr
  · rw [List.mem_singleton.mp hr]
    exact hh

/-- `validate_key` stops at a committed record that is old enough: whoever pushed a
record behind it began before it was committed, and is beaten by it. -/
theorem At.stop (hi : Inv s) (ha : At s x i u) (hval : s.state (s.author u) = .validated)
    (hle : s.wv (s.author u) ≤ s.rv x) : StageOk s x (loopAt s x (i + 1)) := by
  obtain ⟨hv, hlt, hup, pre, post, heq, hpre⟩ := ha
  have hwv := hi.decided_wv _ (Or.inl hval)
  have hu : Harmless s x (s.author u) := Harmless.of_committed hwv hle
  refine loopAt_ok hv (hup.succ fun _ r hr => ?_)
  have hmem := hr
  rw [heq] at hr
  rcases List.mem_append.mp hr with hr | hr
  · exact hpre r hr
  · rcases List.mem_cons.mp hr with rfl | hr
    · exact hu
    · by_cases hne : s.author u = s.author r
      · rw [← hne]
        exact hu
      · refine Or.inr (Or.inr (Or.inr fun w hw => ?_))
        rcases Nat.lt_or_ge (s.rv x) w with hgt | hge
        · have hrun : s.state (s.author u) ≠ .running := by
            rw [hval]
            decide
          have hord : s.rv (s.author r) ≤ s.since (s.author u) :=
            hi.order _ pre u post heq r hr hrun
          have humem : u ∈ s.hist (s.keyAt x i) := by
            rw [heq]
            exact List.mem_append_right _ List.mem_cons_self
          refine Or.inr (Or.inr ⟨s.author u, hne, hval, ⟨_, r, u, hmem, humem, rfl, rfl⟩, ?_, ?_⟩)
          · exact hord.trans_lt (hi.wv_started _ hwv).2
          · exact hle.trans_lt hgt
        · exact Or.inl hge

/-- `validate_key` finds a conflict. -/
theorem At.conflict (hi : Inv s) (ha : At s x i u) (hne : s.author u ≠ x)
    (hval : s.state (s.author u) = .validated) (hgt : s.rv x < s.wv (s.author u))
    (hlt : s.wv (s.author u) < s.wv x) : StageOk s x .storeAborted := by
  refine ⟨ha.1, s.author u, hne, hval, ?_, hgt, hlt⟩
  obtain ⟨r, hr⟩ := keyAt_mem ha.2.1
  obtain ⟨hmem, hau⟩ := (hi.writes_iff x _).mp hr
  exact ⟨_, r, u, hmem, ha.mem_hist, hau, rfl⟩

/-- The comparison of a committed version with the read version. -/
theorem At.compare (hi : Inv s) (ha : At s x i u) (hne : s.author u ≠ x)
    (hval : s.state (s.author u) = .validated) (hlt : s.wv (s.author u) < s.wv x) :
    StageOk s x (if s.wv (s.author u) ≤ s.rv x then loopAt s x (i + 1) else .storeAborted) := by
  split_ifs with hle
  · exact ha.stop hi hval hle
  · exact ha.conflict hi hne hval (Nat.lt_of_not_le hle) hlt

end Walk

/-! ## One step of txn_validate -/

section Validate

variable {s s' : Shared} {t x : ℕ}

/-- What a step of `txn_validate(x)` leads to. -/
def NextOk (s : Shared) (x : ℕ) : Next → Prop
  | .stay q => StageOk s x q
  | .help frame w => ∃ i u, frame = .key x i u w ∧ At s x i u ∧ s.author u = w ∧ w ≠ x ∧ Started s w
  | .ret r => r = s.state x ∧ Versioned s x ∧ s.Decided x
  | .fault => True

/-- What a step of `txn_validate(x)` does to the shared state, and what it leads to. -/
def StageStepOk (s : Shared) (x : ℕ) (r : Shared × Next) : Prop :=
  Inv r.1 ∧ (∀ v, Rely v s r.1) ∧ NextOk r.1 x r.2

/-- A step that leaves the shared state alone. -/
theorem StageStepOk.same (hi : Inv s) {n : Next} (hn : NextOk s x n) : StageStepOk s x (s, n) :=
  ⟨hi, fun v => Rely.refl v s, hn⟩

/-- A step that reads a verdict. -/
theorem StageStepOk.consult (hi : Inv s) (w : ℕ) {q : Stage} (hq : StageOk s x q) :
    StageStepOk s x (s.consult w, .stay q) :=
  ⟨hi.consult w, fun v => Rely.consult v s w, StageOk.mono hi (Rely.consult 0 s w).1 hq⟩

theorem setState_self {st : State} (h : s.state x = st) : s.setState x st = s := by
  unfold Shared.setState
  rw [← h, Function.update_eq_self]

theorem decided_of_state (hx : Started s x) (hne : s.state x ≠ .validating) : s.Decided x := by
  rcases h : s.state x with _ | _ | _ | _
  · exact absurd h hx.2
  · exact absurd h hne
  · exact Or.inl h
  · exact Or.inr h

/-- `txn->state = TXN_ABORTED`. -/
theorem storeAborted_ok (hi : Inv s) (hv : Versioned s x) (hb : Beaten s x (s.wv x)) :
    StageStepOk s x (s.setState x .aborted, .stay .check) := by
  rcases h : s.state x with _ | _ | _ | _
  · exact absurd h hv.1.2
  · have hrely : ∀ v, Rely v s (s.setState x .aborted) := fun v => Rely.setState v h (by decide)
    refine ⟨hi.storeAborted h hv hb, hrely, hv.mono (hrely 0).1, Or.inl (Or.inr ?_)⟩
    exact Function.update_self _ _ _
  · exact absurd hb (hi.sound x h)
  · rw [setState_self h]
    exact StageStepOk.same hi ⟨hv, Or.inl (Or.inr h)⟩

/-- `txn->state = TXN_VALIDATED`. -/
theorem storeValidated_ok (hi : Inv s) (hv : Versioned s x) (hp : KeysPassed s x) :
    StageStepOk s x (s.setState x .validated, .stay .ret) := by
  rcases h : s.state x with _ | _ | _ | _
  · exact absurd h hv.1.2
  · have hrely : ∀ v, Rely v s (s.setState x .validated) := fun v => Rely.setState v h (by decide)
    refine ⟨hi.storeValidated h hv hp, hrely, hv.mono (hrely 0).1, Or.inl ?_⟩
    exact Function.update_self _ _ _
  · rw [setState_self h]
    exact StageStepOk.same hi ⟨hv, Or.inl h⟩
  · exact absurd (hi.beaten x h) (hi.not_beaten_of_passed hp fun y _ hy => hi.sound y hy)

/-- `SYNC_CAS(&txn->wv, UNDETERMINED_VERSION, wv)` succeeds. -/
theorem setWv_ok (hi : Inv s) {w : ℕ} (hx : Started s x) (h0 : s.wv x = undeterminedVersion)
    (hlt : s.since x < w) (hle : w ≤ s.counts.version) :
    StageStepOk s x ({ s with wv := Function.update s.wv x w }, .stay (loopAt s x 0)) := by
  have hrely : ∀ v, Rely v s { s with wv := Function.update s.wv x w } := fun v =>
    Rely.setWv v hx h0 hlt
  refine ⟨hi.setWv hx h0 hlt hle, hrely, ?_⟩
  refine loopAt_ok (s := { s with wv := Function.update s.wv x w }) ⟨hx.mono (hrely 0).1, ?_⟩ ?_
  · show Function.update s.wv x w x ≠ undeterminedVersion
    rw [Function.update_self]
    exact (Nat.zero_le _).trans_lt hlt |>.ne'
  · exact Or.inr fun j hj => absurd hj (Nat.not_lt_zero j)

/-- **One step of `txn_validate`** that fits keeps the invariant, and what every thread
relies on. -/
theorem stageStep_ok (hi : Inv s) {stack : List Frame} {q : Stage} (hq : StageOk s x q)
    (hfit : Fits t s (.validate x stack q) .resume) : StageStepOk s x (stageStep s x q) := by
  have hzero : Versioned s x → StageOk s x (loopAt s x 0) := fun hv =>
    loopAt_ok hv (Or.inr fun j hj => absurd hj (Nat.not_lt_zero j))
  cases q with
  | switch =>
    have hdec : s.Decided x → StageStepOk s x (s.consult x, .stay .ret) := fun hd =>
      StageStepOk.consult hi x ⟨⟨hq, hi.decided_wv x hd⟩, hd⟩
    simp only [stageStep]
    split
    · exact StageStepOk.same hi hq
    · exact hdec (Or.inl ‹_›)
    · exact hdec (Or.inr ‹_›)
    · exact StageStepOk.same hi trivial
  | needVersion =>
    simp only [stageStep]
    split_ifs with h0
    · exact StageStepOk.same hi hq
    · exact StageStepOk.same hi (hzero ⟨hq, h0⟩)
  | add =>
    have hle : s.counts.version ≤ s.counts.version + 1 := Nat.le_succ _
    refine ⟨hi.counts hle, fun v => Rely.counts v s hle, Started.mono (Rely.counts 0 s hle).1 hq, ?_,
      le_rfl⟩
    exact Nat.lt_succ_of_le (hi.since_le x)
  | setVersion w =>
    obtain ⟨hx, hlt, hle⟩ := hq
    simp only [stageStep]
    split_ifs with h0
    · exact setWv_ok hi hx h0 hlt hle
    · exact StageStepOk.same hi (hzero ⟨hx, h0⟩)
  | mapGet i =>
    obtain ⟨hv, hlt, hup⟩ := hq
    have heq : s.hist (s.keyAt x i) = [] ++ s.hist (s.keyAt x i) := rfl
    refine StageStepOk.same hi (walkAt_ok hi hv hlt hup heq ?_ (hi.map_hist (s.keyAt x i)))
    exact fun r hr => absurd hr List.not_mem_nil
  | tag i u =>
    have ha : At s x i u := hq
    simp only [stageStep]
    simp only [Fits] at hfit
    split
    · rename_i n hn
      simp only [hn] at hfit
      obtain ⟨hval, hwv⟩ := hi.num_validated _ u ha.mem_hist n hn
      have hlt : s.wv (s.author u) < s.wv x := hwv.trans_lt hfit
      have hne : s.author u ≠ x := by
        intro h
        rw [h] at hlt
        exact lt_irrefl _ hlt
      rw [← hwv]
      exact StageStepOk.same hi (ha.compare hi hne hval hlt)
    · exact StageStepOk.same hi hq
    · exact StageStepOk.same hi hq
  | aborted i u =>
    have ha : At s x i u := hq
    simp only [stageStep]
    split_ifs with hab
    · refine StageStepOk.same hi (ha.skip hi ?_)
      exact Or.inr ((hi.aborted_author _ u ha.mem_hist hab).imp id Or.inl)
    · exact StageStepOk.same hi hq
  | writer i u =>
    have ha : At s x i u := hq
    simp only [stageStep]
    split
    · rename_i w hw
      have hau := hi.owner_author _ u ha.mem_hist w hw
      split_ifs with hwx
      · exact StageStepOk.same hi (ha.skip hi (Or.inl (hau.trans hwx)))
      · exact StageStepOk.same hi ⟨ha, hau, hwx⟩
    · exact StageStepOk.same hi trivial
    · exact StageStepOk.same hi trivial
  | writerState i u w =>
    obtain ⟨ha, hau, hne⟩ := hq
    simp only [stageStep]
    split
    · rename_i hst
      exact StageStepOk.same hi (ha.skip hi (Or.inr (Or.inl (hau ▸ hst))))
    · rename_i hst
      refine StageStepOk.same hi ⟨ha, hau, hne, ?_⟩
      rw [hst]
      decide
    · rename_i hst
      exact StageStepOk.consult hi w (ha.skip hi (Or.inr (Or.inr (Or.inl (hau ▸ hst)))))
    · exact StageStepOk.consult hi w ⟨ha, hau, hne, ‹_›⟩
  | writerVersion i u w =>
    obtain ⟨ha, hau, hne, hst⟩ := hq
    simp only [stageStep]
    split_ifs with hlt
    · refine StageStepOk.same hi (ha.skip hi ?_)
      -- its write version is there, and above that of `x`
      rw [hau]
      refine Or.inr (Or.inr (Or.inr fun w' hw' => Or.inr (Or.inl ?_)))
      rcases hw' with ⟨h0, _⟩ | ⟨_, rfl⟩
      · rw [h0] at hlt
        exact absurd hlt (Nat.not_lt_zero _)
      · exact hlt.le
    · refine StageStepOk.same hi ⟨i, u, rfl, ha, hau, hne, ?_, hst⟩
      rw [← hau]
      exact hi.author_born _ u ha.mem_hist
  | compare i u w =>
    obtain ⟨ha, rfl, hne, hst⟩ := hq
    exact StageStepOk.same hi (ha.compare hi hne hst hfit)
  | storeAborted => exact storeAborted_ok hi hq.1 hq.2
  | check =>
    obtain ⟨hv, hor⟩ := hq
    simp only [stageStep]
    split_ifs with hst
    · refine StageStepOk.same hi ⟨hv, hor.resolve_left fun hd => ?_⟩
      rcases hd with h | h <;> rw [hst] at h <;> cases h
    · exact StageStepOk.same hi ⟨hv, decided_of_state hv.1 hst⟩
  | storeValidated => exact storeValidated_ok hi hq.1 hq.2
  | ret =>
    have hrely := fun v => Rely.consult v s x
    refine ⟨hi.consult x, hrely, ?_, hq.1.mono (hrely 0).1, (hrely 0).1.decided_keep hq.2⟩
    exact ((hrely 0).1.decided x hq.2).symm

end Validate

/-! ## One step of a transaction -/

section Step

variable {s s' : Shared} {t : ℕ}

/-- What a step of transaction `t` does to the shared state, and where it leads. -/
def StepOk (t : ℕ) (s : Shared) (r : Shared × Pc) : Prop :=
  Inv r.1 ∧ Local r.1 t r.2 ∧ ∀ v, v ≠ t → Rely v s r.1

/-- A step that leaves the shared state alone. -/
theorem StepOk.same (hi : Inv s) {pc : Pc} (hl : Local s t pc) : StepOk t s (s, pc) :=
  ⟨hi, hl, fun v _ => Rely.refl v s⟩

/-- A step after which everybody, `t` as well, finds what it relies on. -/
theorem StepOk.rely (hi : Inv s) (hi' : Inv s') (hr : ∀ v, Rely v s s') {pc : Pc}
    (hl : Local s t pc) : StepOk t s (s', pc) :=
  ⟨hi', hl.stable hi (hr t), fun v _ => hr v⟩

/-- A step that reads a verdict. -/
theorem StepOk.consult (hi : Inv s) (w : ℕ) {pc : Pc} (hl : Local s t pc) :
    StepOk t s (s.consult w, pc) :=
  StepOk.rely hi (hi.consult w) (fun v => Rely.consult v s w) hl

/-- The head of the search loop of `txn_map_get`. -/
theorem getAt_ok (hr : Ready s t) {key : ℕ} (newest : Val) {v : Val}
    (hv : ∀ u, v = .upd u → u ∈ s.hist key) : Local s t (getAt key newest v) := by
  cases v with
  | upd u => exact ⟨hr, hv u rfl⟩
  | dne => exact hr
  | lit n => exact hr

theorem Inv.map_mem (hi : Inv s) {key u : ℕ} (hu : s.map key = .upd u) : u ∈ s.hist key := by
  rcases hi.map_hist key with ⟨w, post, hw, hh⟩ | ⟨hno, _⟩
  · rw [hu] at hw
    cases hw
    rw [hh]
    exact List.mem_cons_self
  · exact absurd hu (hno u)

theorem Inv.next_mem (hi : Inv s) {key u : ℕ} (hu : u ∈ s.hist key) {n : ℕ}
    (hn : (s.record u).next = .upd n) : n ∈ s.hist key := by
  obtain ⟨pre, post, heq⟩ := List.append_of_mem hu
  rcases hi.next_hist key pre u post heq with ⟨w, post', hw, rfl⟩ | ⟨hno, _⟩
  · rw [hn] at hw
    cases hw
    rw [heq]
    exact List.mem_append_right _ (List.mem_cons_of_mem _ List.mem_cons_self)
  · exact absurd hn (hno n)

/-- The search goes on with the next record. -/
theorem getAt_next_ok (hi : Inv s) (hr : Ready s t) {key u : ℕ} (newest : Val)
    (hu : u ∈ s.hist key) : Local s t (getAt key newest (s.record u).next) :=
  getAt_ok hr newest fun _ hn => hi.next_mem hu hn

/-- The search stops. -/
theorem collectAt_ok (hr : Ready s t) {key u : ℕ} (newest : Val) (hu : u ∈ s.hist key) :
    Local s t (collectAt s key u newest) := by
  unfold collectAt
  split
  · exact hr
  all_goals
    split_ifs
    · refine ⟨hr, hu, fun v hv => ?_⟩
      simp_all
    · exact hr

/-- `txn_validate` returns to its caller. -/
theorem returnTo_ok (hi : Inv s) {x : ℕ} {stack : List Frame} (hv : Versioned s x)
    (hd : s.Decided x) (hst : StackOk s t x stack) :
    Local s t (returnTo s (s.state x) stack) := by
  cases stack with
  | nil => exact hst.elim
  | cons frame stack =>
    cases frame with
    | key y i u w =>
      obtain ⟨rfl, ha, hau, hne, hrest⟩ := hst
      simp only [returnTo]
      split_ifs with hab
      · refine ⟨ha.skip hi (Or.inr (Or.inr (Or.inl ?_))), hrest⟩
        rw [hau]
        exact hab
      · exact ⟨⟨ha, hau, hne, hd.resolve_right hab⟩, hrest⟩
    | get key u w newest =>
      obtain ⟨rfl, hu, hr⟩ := hst
      simp only [returnTo]
      split_ifs with hab
      · exact getAt_next_ok hi hr newest hu
      · exact ⟨hr, hu, hv.1.1, hv.1.2⟩
    | commit =>
      have hxt : x = t := hst
      subst hxt
      exact ⟨hv, hd⟩

/-- The step of a running `txn_validate`. -/
theorem validate_ok (hi : Inv s) {x : ℕ} {stack : List Frame} {q : Stage}
    (hl : Local s t (.validate x stack q)) (hfit : Fits t s (.validate x stack q) .resume)
    {r : Shared × Pc} (h : step t s (.validate x stack q) .resume = some r) : StepOk t s r := by
  obtain ⟨hi', hrely, hnext⟩ := stageStep_ok hi hl.1 hfit
  have hstack := hl.2.stable hi (hrely t)
  simp only [step] at h
  rcases hres : stageStep s x q with ⟨s', n⟩
  rw [hres] at h hi' hrely hnext hstack
  cases n with
  | stay q' =>
    cases h
    exact ⟨hi', ⟨hnext, hstack⟩, fun v _ => hrely v⟩
  | help frame w =>
    cases h
    obtain ⟨i, u, rfl, ha, hau, hne, hw⟩ := hnext
    exact ⟨hi', ⟨hw, rfl, ha, hau, hne, hstack⟩, fun v _ => hrely v⟩
  | ret r =>
    cases h
    obtain ⟨hr, hv, hd⟩ := hnext
    have hr : r = s'.state x := hr
    subst hr
    exact ⟨hi', returnTo_ok hi' hv hd hstack, fun v _ => hrely v⟩
  | fault =>
    cases h
    exact ⟨hi', trivial, fun v _ => hrely v⟩

theorem countCas_cases (c : Active.Shared) (rv old new : ℕ) (again : Active.Pc)
    (next : ℕ → Active.Pc) :
    (Active.countCas c rv old new again next).1.version = c.version
      ∧ ((Active.countCas c rv old new again next).2 = again
        ∨ ∃ n, (Active.countCas c rv old new again next).2 = next n) := by
  unfold Active.countCas
  split
  · exact ⟨rfl, Or.inl rfl⟩
  · exact ⟨rfl, Or.inr ⟨_, rfl⟩⟩

/-- The counting loop of `txn_begin` leaves `version_` alone, and ends at it. -/
theorem begin_count {c c' : Active.Shared} {p p' : Active.Pc} (hp : Beginning p)
    (h : Active.step t c p .resume = some (c', p')) :
    c'.version = c.version ∧ (p' = .running c.version ∨ Beginning p') := by
  cases p with
  | beginVersion =>
    cases h
    exact ⟨rfl, Or.inr trivial⟩
  | beginCas rv old =>
    obtain ⟨hv, hpc⟩ := countCas_cases c rv old (Active.incr old) (.beginCas rv old) fun temp =>
      if temp = old then .beginCheck rv else .beginCas rv temp
    rw [Option.some.inj h] at hv hpc
    refine ⟨hv, Or.inr ?_⟩
    rcases hpc with rfl | ⟨n, rfl⟩
    · trivial
    · split_ifs <;> trivial
  | beginCheck rv =>
    simp only [Active.step] at h
    split_ifs at h with hrv
    · cases h
      exact ⟨rfl, Or.inl (congrArg _ hrv)⟩
    · cases h
      exact ⟨rfl, Or.inr trivial⟩
  | undoCas rv old =>
    obtain ⟨hv, hpc⟩ := countCas_cases c rv old (Active.decr old) (.undoCas rv old) fun temp =>
      if temp = old then .beginVersion else .undoCas rv temp
    rw [Option.some.inj h] at hv hpc
    refine ⟨hv, Or.inr ?_⟩
    rcases hpc with rfl | ⟨n, rfl⟩
    · trivial
    · split_ifs <;> trivial
  | _ => exact hp.elim

/-- The counting loop of `txn_commit` leaves `version_` alone. -/
theorem end_count {c c' : Active.Shared} {p p' : Active.Pc} (hp : Ending p)
    (h : Active.step t c p .resume = some (c', p')) :
    c'.version = c.version ∧ (p' = .idle ∨ Ending p') := by
  cases p with
  | commitCas rv old =>
    obtain ⟨hv, hpc⟩ := countCas_cases c rv old (Active.decr old) (.commitCas rv old) fun temp =>
      if temp = 1 then .commitVersion rv old
      else if old = temp then .idle else .commitCas rv temp
    rw [Option.some.inj h] at hv hpc
    refine ⟨hv, ?_⟩
    rcases hpc with rfl | ⟨n, rfl⟩
    · exact Or.inr trivial
    · split_ifs
      · exact Or.inr trivial
      · exact Or.inl rfl
      · exact Or.inr trivial
  | commitVersion rv old =>
    simp only [Active.step] at h
    split_ifs at h <;> cases h
    · exact ⟨rfl, Or.inr trivial⟩
    · exact ⟨rfl, Or.inl rfl⟩
    · exact ⟨rfl, Or.inr trivial⟩
  | commitRemove rv =>
    cases h
    exact ⟨rfl, Or.inl rfl⟩
  | _ => exact hp.elim

/-- A step of the loop of `txn_begin`. -/
theorem begin_ok (hi : Inv s) {p : Active.Pc} (hl : Local s t (.begin p)) {r : Shared × Pc}
    (h : step t s (.begin p) .resume = some r) : StepOk t s r := by
  obtain ⟨hb, hrun, hp⟩ := hl
  simp only [step] at h
  rcases hres : Active.step t s.counts p .resume with _ | ⟨c, p'⟩
  · rw [hres] at h
    cases h
  · obtain ⟨hv, hor⟩ := begin_count hp hres
    rw [hres] at h
    rcases hor with rfl | hp'
    · cases h
      refine ⟨hi.begin hv hb, ⟨List.mem_cons_self, hrun, fun k u hu hau => ?_⟩, fun v hvt =>
        Rely.begin v hv s.counts.version hb hvt⟩
      exact absurd (hau ▸ hi.author_born k u hu) hb
    · have hr : r = ({ s with counts := c }, .begin p') := by
        cases p' <;> first | exact hp'.elim | exact (Option.some.inj h).symm
      subst hr
      exact StepOk.rely hi (hi.counts hv.ge) (fun v => Rely.counts v s hv.ge) ⟨hb, hrun, hp'⟩

/-- A step of the loop of `txn_commit`. -/
theorem count_ok (hi : Inv s) {p : Active.Pc} (hl : Local s t (.count p)) {r : Shared × Pc}
    (h : step t s (.count p) .resume = some r) : StepOk t s r := by
  simp only [step] at h
  rcases hres : Active.step t s.counts p .resume with _ | ⟨c, p'⟩
  · rw [hres] at h
    cases h
  · obtain ⟨hv, hor⟩ := end_count hl hres
    rw [hres] at h
    have hrely := fun v => Rely.counts v s hv.ge
    rcases hor with rfl | hp'
    · cases h
      exact StepOk.rely hi (hi.counts hv.ge) hrely trivial
    · have hr : r = ({ s with counts := c }, .count p') := by
        cases p' <;> first | exact hp'.elim | exact (Option.some.inj h).symm
      subst hr
      exact StepOk.rely hi (hi.counts hv.ge) hrely hp'

/-- A record gets its final version. -/
theorem setVersion_ok (hi : Inv s) {p : ℕ × ℕ} {ver : Ver} (hp : p ∈ s.writes t)
    (hver : (ver = .aborted ∧ (s.state t = .running ∨ s.state t = .aborted))
      ∨ (ver = .num (s.wv t) ∧ s.state t = .validated)) {pc : Pc}
    (hl : Local (s.setVersion p.2 ver) t pc) : StepOk t s (s.setVersion p.2 ver, pc) := by
  obtain ⟨hu, hau⟩ := (hi.writes_iff t p).mp hp
  refine ⟨hi.setVersion hu hau hver, hl, fun v hv => setVersion_rely hi hu hau hv ?_⟩
  refine hver.imp (fun h => ⟨h.1, ?_⟩) id
  rcases h.2 with h | h <;> rw [h] <;> decide

/-- `alloc_update_rec`. -/
theorem alloc_ok (hi : Inv s) (hr : Ready s t) (key value : ℕ) (old : Val) :
    StepOk t s (s.alloc t value, .setCas key value s.brk old) := by
  have hout : Outside s (s.alloc t value) := Outside.alloc hi value
  have hrec : ∀ r, r < s.brk → (s.alloc t value).record r = s.record r := fun r hr =>
    Function.update_of_ne hr.ne _ _
  have hrely : ∀ v, Rely v s (s.alloc t value) := fun v =>
    ⟨hout.grows, hout.mine fun r hr _ => hrec r hr⟩
  refine ⟨hout.inv hi, ⟨hr.stable hi (hrely t), Nat.lt_succ_self _, ?_, fun k hk => ?_, ?_⟩,
    fun v _ => hrely v⟩
  · exact Function.update_self _ _ _
  · exact lt_irrefl _ (hi.hist_lt k s.brk hk)
  · show ((s.alloc t value).record s.brk).version = .owner t
    rw [show (s.alloc t value).record s.brk = ⟨.owner t, value, .dne⟩ from
      Function.update_self _ _ _]

/-- `update->next = old_update`, and the `map_cas` of `txn_map_set`. -/
theorem setCas_ok (hi : Inv s) {key value u : ℕ} {old : Val}
    (hl : Local s t (.setCas key value u old)) :
    StepOk t s (s.setNext u old, .setCas key value u (s.map key))
      ∧ (s.map key = old → StepOk t s ((s.setNext u old).push t key u, .ready)) := by
  obtain ⟨hr, hlt, hau, hnot, hver⟩ := hl
  have hout : Outside s (s.setNext u old) := Outside.setNext hnot old
  have hself : (s.setNext u old).record u = { s.record u with next := old } :=
    Function.update_self _ _ _
  have hi₁ := hout.inv hi
  have hrely₁ : ∀ v, v ≠ t → Rely v s (s.setNext u old) := by
    refine fun v hv => ⟨hout.grows, hout.mine fun r _ har => Function.update_of_ne ?_ _ _⟩
    rintro rfl
    exact hv (har.symm.trans hau)
  have hver₁ : ((s.setNext u old).record u).version = .owner t := by
    rw [hself]
    exact hver
  have hr₁ : Ready (s.setNext u old) t := by
    refine ⟨hr.1, hr.2.1, fun k r hrm har => ?_⟩
    rw [hout.record k r hrm]
    exact hr.2.2 k r hrm har
  refine ⟨⟨hi₁, ⟨hr₁, hlt, hau, hnot, hver₁⟩, hrely₁⟩, fun hmap => ?_⟩
  have hnext : ((s.setNext u old).record u).next = (s.setNext u old).map key := by
    rw [hself]
    exact hmap.symm
  refine ⟨hi₁.push hr₁ hlt hau hnot hver₁ hnext, ⟨hr.1, hr.2.1, fun k r hrm har => ?_⟩,
    fun v hv => ?_⟩
  · by_cases hru : r = u
    · rw [hru]
      exact hver₁
    · refine hr₁.2.2 k r ?_ har
      by_cases hk : k = key
      · subst hk
        rw [show ((s.setNext u old).push t k u).hist k = u :: s.hist k from
          Function.update_self _ _ _] at hrm
        exact (List.mem_cons.mp hrm).resolve_left hru
      · rw [show ((s.setNext u old).push t key u).hist k = s.hist k from
          Function.update_of_ne hk _ _] at hrm
        exact hrm
  · exact hout.trans_rely (hrely₁ v hv).2 (Rely.push hr.2.1 hau hv)

/-- A call on the transaction begins. -/
theorem ready_ok (hi : Inv s) {c : Cmd} (hl : Local s t .ready) {r : Shared × Pc}
    (h : step t s .ready c = some r) : StepOk t s r := by
  cases c with
  | set key value =>
    simp only [step] at h
    split_ifs at h
    cases h
    exact StepOk.same hi hl
  | get key =>
    cases h
    exact StepOk.same hi hl
  | commit =>
    cases h
    exact StepOk.same hi hl
  | abort =>
    cases h
    exact StepOk.same hi ⟨hl.1, hl.2.1, fun _ hp => hp⟩
  | _ => cases h

/-- The CAS of the new record in front of the list. -/
theorem step_setCas_ok {key value u : ℕ} {old : Val} (hi : Inv s) {c : Cmd}
    (hl : Local s t (.setCas key value u old)) {r : Shared × Pc}
    (h : step t s (.setCas key value u old) c = some r) : StepOk t s r := by
  obtain ⟨hfail, hpush⟩ := setCas_ok hi hl
  cases c with
  | resume =>
    simp only [step] at h
    split_ifs at h with hmap
    · cases h
      exact hpush hmap
    · cases h
      exact hfail
  | _ => cases h

/-- The transaction becomes `TXN_VALIDATING`. -/
theorem commitState_ok (hi : Inv s) {c : Cmd} (hl : Local s t .commitState) {r : Shared × Pc}
    (h : step t s .commitState c = some r) : StepOk t s r := by
  cases c <;> cases h
  have hr : Ready s t := hl
  have hself : (s.setValidating t).state t = .validating := Function.update_self _ _ _
  refine ⟨hi.setValidating hr, ⟨⟨hr.1, ?_⟩, rfl⟩, fun v hv => Rely.setValidating hr.2.1 hv⟩
  rw [hself]
  decide

/-- `txn_commit` has its verdict. -/
theorem commitVerdict_ok (hi : Inv s) {c : Cmd} (hl : Local s t .commitVerdict) {r : Shared × Pc}
    (h : step t s .commitVerdict c = some r) : StepOk t s r := by
  cases c with
  | resume =>
    simp only [step] at h
    split_ifs at h with hab
    · cases h
      exact StepOk.consult hi t ⟨hl.1, fun _ hp => hp, Or.inl ⟨rfl, hab⟩⟩
    · cases h
      exact StepOk.consult hi t ⟨hl.1, hl.2.resolve_right hab⟩
  | _ => cases h

/-- `txn_commit` writes the version of a record. -/
theorem detach_ok {ver : Ver} {ws : List (ℕ × ℕ)} (hi : Inv s) {c : Cmd}
    (hl : Local s t (.detach ver ws)) {r : Shared × Pc} (h : step t s (.detach ver ws) c = some r) :
    StepOk t s r := by
  cases c with
  | resume =>
    obtain ⟨hv, hws, hver⟩ := hl
    cases ws with
    | nil =>
      cases h
      exact StepOk.same hi trivial
    | cons p ws =>
      cases h
      refine setVersion_ok hi (hws p List.mem_cons_self) (hver.imp (fun h => ⟨h.1, Or.inr h.2⟩) id)
        ⟨hv, fun p' hp' => hws p' (List.mem_cons_of_mem _ hp'), hver⟩
  | _ => cases ws <;> cases h

/-- `txn_abort` marks a record. -/
theorem abort_ok {ws : List (ℕ × ℕ)} (hi : Inv s) {c : Cmd} (hl : Local s t (.abort ws))
    {r : Shared × Pc} (h : step t s (.abort ws) c = some r) : StepOk t s r := by
  cases c with
  | resume =>
    obtain ⟨hb, hrun, hws⟩ := hl
    cases ws with
    | nil =>
      cases h
      exact StepOk.same hi trivial
    | cons p ws =>
      cases h
      exact setVersion_ok hi (hws p List.mem_cons_self) (Or.inl ⟨rfl, Or.inl hrun⟩)
        ⟨hb, hrun, fun p' hp' => hws p' (List.mem_cons_of_mem _ hp')⟩
  | _ => cases ws <;> cases h

/-- `txn_map_get` looks at the version of a record. -/
theorem getTag_ok {key u : ℕ} {newest : Val} (hi : Inv s) {c : Cmd}
    (hl : Local s t (.getTag key u newest)) {r : Shared × Pc}
    (h : step t s (.getTag key u newest) c = some r) : StepOk t s r := by
  cases c with
  | resume =>
    simp only [step] at h
    split at h
    · split_ifs at h
      · cases h
        exact StepOk.same hi (collectAt_ok hl.1 newest hl.2)
      · cases h
        exact StepOk.same hi (getAt_next_ok hi hl.1 newest hl.2)
    all_goals
      cases h
      exact StepOk.same hi hl
  | _ => cases h

/-- An aborted record is skipped. -/
theorem getAborted_ok {key u : ℕ} {newest : Val} (hi : Inv s) {c : Cmd}
    (hl : Local s t (.getAborted key u newest)) {r : Shared × Pc}
    (h : step t s (.getAborted key u newest) c = some r) : StepOk t s r := by
  cases c with
  | resume =>
    simp only [step] at h
    split_ifs at h
    · cases h
      exact StepOk.same hi (getAt_next_ok hi hl.1 newest hl.2)
    · cases h
      exact StepOk.same hi hl
  | _ => cases h

/-- `txn_map_get` follows a tagged version to its transaction. -/
theorem getWriter_ok {key u : ℕ} {newest : Val} (hi : Inv s) {c : Cmd}
    (hl : Local s t (.getWriter key u newest)) {r : Shared × Pc}
    (h : step t s (.getWriter key u newest) c = some r) : StepOk t s r := by
  cases c with
  | resume =>
    simp only [step] at h
    split at h
    · rename_i w hw
      split_ifs at h
      · cases h
        exact StepOk.same hi (collectAt_ok hl.1 newest hl.2)
      · cases h
        refine StepOk.same hi ⟨hl.1, hl.2, ?_⟩
        rw [← hi.owner_author key u hl.2 w hw]
        exact hi.author_born key u hl.2
    all_goals
      cases h
      exact StepOk.same hi trivial
  | _ => cases h

/-- `txn_map_get` reads the state of the writer. -/
theorem getState_ok {key u w : ℕ} {newest : Val} (hi : Inv s) {c : Cmd}
    (hl : Local s t (.getState key u w newest)) {r : Shared × Pc}
    (h : step t s (.getState key u w newest) c = some r) : StepOk t s r := by
  cases c with
  | resume =>
    obtain ⟨hr, hu, hw⟩ := hl
    simp only [step] at h
    split at h
    · cases h
      exact StepOk.same hi (getAt_next_ok hi hr newest hu)
    · cases h
      refine StepOk.same hi ⟨hr, hu, hw, ?_⟩
      rw [‹s.state w = _›]
      decide
    · cases h
      exact StepOk.consult hi w (getAt_next_ok hi hr newest hu)
    · cases h
      have hne : s.state w ≠ .running := by
        rw [‹s.state w = _›]
        decide
      have hl' : Local s t (.getCompare key u w newest) := ⟨hr, hu, hw, hne⟩
      exact StepOk.consult hi w hl'
  | _ => cases h

/-- `txn_map_get` reads the version of a writer in validation. -/
theorem getVersion_ok {key u w : ℕ} {newest : Val} (hi : Inv s) {c : Cmd}
    (hl : Local s t (.getVersion key u w newest)) {r : Shared × Pc}
    (h : step t s (.getVersion key u w newest) c = some r) : StepOk t s r := by
  cases c with
  | resume =>
    obtain ⟨hr, hu, hw, hst⟩ := hl
    simp only [step] at h
    split_ifs at h
    · cases h
      exact StepOk.same hi (getAt_next_ok hi hr newest hu)
    · cases h
      exact StepOk.same hi ⟨⟨hw, hst⟩, rfl, hu, hr⟩
  | _ => cases h

/-- `txn_map_get` compares the version of the writer with its own. -/
theorem getCompare_ok {key u w : ℕ} {newest : Val} (hi : Inv s) {c : Cmd}
    (hl : Local s t (.getCompare key u w newest)) {r : Shared × Pc}
    (h : step t s (.getCompare key u w newest) c = some r) : StepOk t s r := by
  cases c with
  | resume =>
    simp only [step] at h
    split_ifs at h
    · cases h
      exact StepOk.same hi (getAt_next_ok hi hl.1 newest hl.2.1)
    · cases h
      exact StepOk.same hi (collectAt_ok hl.1 newest hl.2.1)
  | _ => cases h

/-- The collector looks at the version of the next record. -/
theorem collectVersion_ok {n min : ℕ} (hi : Inv s) {c : Cmd}
    (hl : Local s t (.collectVersion n min)) {r : Shared × Pc}
    (h : step t s (.collectVersion n min) c = some r) : StepOk t s r := by
  cases c with
  | resume =>
    simp only [step] at h
    split_ifs at h <;> cases h <;> exact StepOk.same hi hl
  | _ => cases h

/-- The collector frees the records that follow. -/
theorem collectFree_ok {temp : ℕ} (hi : Inv s) {c : Cmd} (hl : Local s t (.collectFree temp))
    (hfit : Fits t s (.collectFree temp) c) {r : Shared × Pc}
    (h : step t s (.collectFree temp) c = some r) : StepOk t s r := by
  cases c with
  | resume =>
    -- nothing is freed, and what is stored is there already
    have hn : (s.record temp).next = .dne := hfit
    have hsame : s.setNext temp .dne = s := by
      unfold Shared.setNext
      rw [← hn, Function.update_eq_self]
    simp only [step, hn] at h
    cases h
    rw [hsame]
    exact StepOk.same hi hl
  | _ => cases h

/-- Is the record older than every active transaction? -/
theorem mergeVersion_ok {key u min : ℕ} (hi : Inv s) {c : Cmd}
    (hl : Local s t (.mergeVersion key u min)) {r : Shared × Pc}
    (h : step t s (.mergeVersion key u min) c = some r) : StepOk t s r := by
  cases c with
  | resume =>
    obtain ⟨hr, hu, hnext⟩ := hl
    simp only [step] at h
    split_ifs at h with hle
    · cases h
      refine StepOk.same hi ⟨hr, hu, hnext, ?_⟩
      rcases hver : (s.record u).version with n | _ | w
      · exact ⟨n, rfl⟩
      · rw [hver] at hle
        cases hle
      · rw [hver] at hle
        cases hle
    · cases h
      exact StepOk.same hi hr
  | _ => cases h

/-- The CAS of the literal over the last record. -/
theorem mergeCas_ok {key u : ℕ} (hi : Inv s) {c : Cmd} (hl : Local s t (.mergeCas key u))
    (hfit : Fits t s (.mergeCas key u) c) {r : Shared × Pc}
    (h : step t s (.mergeCas key u) c = some r) : StepOk t s r := by
  cases c with
  | resume =>
    obtain ⟨hr, hu, hnext, n, hver⟩ := hl
    simp only [step] at h
    split_ifs at h with hzero hmap
    · cases h
      exact StepOk.same hi trivial
    · cases h
      refine StepOk.rely hi (hi.merge hmap hnext hver fun x hx hd => ?_)
        (fun v => Rely.merge v s key u) hr
      have hle := hfit hmap x hx hd
      rw [hver] at hle
      exact of_decide_eq_true hle
    · cases h
      exact StepOk.same hi hr
  | _ => cases h

/-- **One step of a transaction** that fits. -/
theorem step_guarantee (hi : Inv s) {pc : Pc} {c : Cmd} (hl : Local s t pc)
    (hfit : Fits t s pc c) {r : Shared × Pc} (h : step t s pc c = some r) : StepOk t s r := by
  cases pc with
  | unborn =>
    cases c <;> cases h
    exact StepOk.same hi ⟨hl.1, hl.2, trivial⟩
  | begin p =>
    cases c with
    | resume => exact begin_ok hi hl h
    | _ => cases h
  | ready => exact ready_ok hi hl h
  | setGet key value =>
    cases c <;> cases h
    exact alloc_ok hi hl key value _
  | setCas key value u old => exact step_setCas_ok hi hl h
  | commitState => exact commitState_ok hi hl h
  | validate x stack q =>
    cases c with
    | resume => exact validate_ok hi hl hfit h
    | _ => cases h
  | commitVerdict => exact commitVerdict_ok hi hl h
  | commitVersion =>
    cases c <;> cases h
    exact StepOk.same hi ⟨hl.1, fun _ hp => hp, Or.inr ⟨rfl, hl.2⟩⟩
  | detach ver ws => exact detach_ok hi hl h
  | count p =>
    cases c with
    | resume => exact count_ok hi hl h
    | _ => cases h
  | abort ws => exact abort_ok hi hl h
  | getMap key =>
    cases c <;> cases h
    exact StepOk.same hi (getAt_ok hl _ fun _ hu => hi.map_mem hu)
  | getTag key u newest => exact getTag_ok hi hl h
  | getAborted key u newest => exact getAborted_ok hi hl h
  | getWriter key u newest => exact getWriter_ok hi hl h
  | getState key u w newest => exact getState_ok hi hl h
  | getVersion key u w newest => exact getVersion_ok hi hl h
  | getCompare key u w newest => exact getCompare_ok hi hl h
  | collectMin u n =>
    cases c <;> cases h
    exact StepOk.same hi hl
  | collectVersion n min => exact collectVersion_ok hi hl h
  | collectFree temp => exact collectFree_ok hi hl hfit h
  | mergeMin key u =>
    cases c <;> cases h
    exact StepOk.same hi hl
  | mergeVersion key u min => exact mergeVersion_ok hi hl h
  | mergeCas key u => exact mergeCas_ok hi hl hfit h
  | finished => cases c <;> cases h
  | fault => cases c <;> cases h

end Step

/-! ## Whole runs -/

theorem relyGuarantee : RelyGuarantee step Fits Inv (fun t s pc => Local s t pc) Rely where
  guarantee := fun _ _ _ _ _ _ hi hl hfit h => step_guarantee hi hl hfit h
  stable := fun _ _ _ _ hi hr hl => hl.stable hi hr

theorem init_holds : init.Holds Inv fun t s pc => Local s t pc := by
  have hnil : ∀ k u, u ∉ init.shared.hist k := fun _ _ => List.not_mem_nil
  have hsplit : ∀ k pre u post, init.shared.hist k ≠ pre ++ u :: post := by
    intro k pre u post h
    refine hnil k u ?_
    rw [h]
    exact List.mem_append_right _ List.mem_cons_self
  have hdec : ∀ x, ¬ init.shared.Decided x := by
    rintro x (h | h) <;> cases h
  refine ⟨⟨fun k u hu => absurd hu (hnil k u), fun k u hu => absurd hu (hnil k u),
    fun _ hx => absurd hx List.not_mem_nil, fun _ => Nat.zero_le _, fun _ => Nat.zero_le _,
    fun _ h => absurd rfl h, fun x hx => absurd hx (hdec x), fun x hx => absurd hx (hdec x),
    fun x p => ⟨fun hp => absurd hp List.not_mem_nil, fun hp => absurd hp.1 (hnil _ _)⟩,
    fun k => Or.inr ⟨fun u hu => ?_, fun u hu => absurd hu (hnil k u)⟩,
    fun k pre u post h => absurd h (hsplit k pre u post),
    fun _ hu => absurd hu List.not_mem_nil, fun k u hu => absurd hu (hnil k u),
    fun k u hu => absurd hu (hnil k u), fun k u hu => absurd hu (hnil k u),
    fun k pre u post h => absurd h (hsplit k pre u post), fun x hx => absurd (Or.inl hx) (hdec x),
    fun x hx => absurd (Or.inl hx) (hdec x), fun x hx => absurd (Or.inr hx) (hdec x),
    fun _ hp => absurd hp List.not_mem_nil⟩, fun t => ⟨List.not_mem_nil, rfl⟩⟩
  cases hu

/-- The invariant, and the verdicts that were there in `c`. -/
def Kept (c d : Conf Shared Pc) : Prop :=
  (d.Holds Inv fun t s pc => Local s t pc)
    ∧ ∀ x, c.shared.Decided x → d.shared.state x = c.shared.state x

/-- A step that fits changes no verdict. -/
theorem decided_step {c c' : Conf Shared Pc} {e : ℕ × Cmd}
    (hc : c.Holds Inv fun t s pc => Local s t pc) (hfit : onThread Fits c e)
    (hstep : sys c e = some c') {x : ℕ} (hx : c.shared.Decided x) :
    c'.shared.state x = c.shared.state x := by
  obtain ⟨k', hprog, _⟩ := interleave_eq_some.mp hstep
  obtain ⟨_, _, hrely⟩ := step_guarantee hc.1 (hc.2 e.1) hfit hprog
  exact (hrely (e.1 + 1) (Nat.succ_ne_self _)).1.decided x hx

theorem kept_step {c : Conf Shared Pc} (d : Conf Shared Pc) (e : ℕ × Cmd) (d' : Conf Shared Pc)
    (hd : Kept c d) (hok : onThread Fits d e) (hstep : sys d e = some d') : Kept c d' := by
  refine ⟨relyGuarantee.holds_step hd.1 hok hstep, fun x hx => ?_⟩
  have hdx : d.shared.Decided x := by
    unfold Shared.Decided
    rw [hd.2 x hx]
    exact hx
  rw [decided_step hd.1 hok hstep hdx]
  exact hd.2 x hx

/-- **The verdict is stable and agreed.**  In every run whose steps all fit, a verdict
that is there at some point of the run is there at every later point, and whoever read a
verdict read that one. -/
theorem commit_verdict_agreed {es es' : List (ℕ × Cmd)} {c c' : Conf Shared Pc}
    (hfit : StepsMeet sys (onThread Fits) init es) (hrun : run sys init es = some c)
    (hfit' : StepsMeet sys (onThread Fits) c es') (hrun' : run sys c es' = some c') :
    (∀ x, c.shared.Decided x → c'.shared.state x = c.shared.state x)
      ∧ ∀ x v, (x, v) ∈ c'.shared.verdicts → c'.shared.state x = v := by
  have hc := relyGuarantee.holds_run init_holds hfit hrun
  have hkept : Kept c c := ⟨hc, fun _ _ => rfl⟩
  obtain ⟨hc', hsame⟩ := run_invariant kept_step hkept hfit' hrun'
  exact ⟨hsame, fun x v hv => (hc'.1.verdicts (x, v) hv).2⟩

/-- All steps of thread `t` up to some point of a call. -/
def resumes (t n : ℕ) : List (ℕ × Cmd) := List.replicate n (t, .resume)

/-- Two transactions set key 5.  The first one starts to commit and has its write version;
the second one commits, meets the record of the first and helps it. -/
def helpedRun : List (ℕ × Cmd) :=
  [(0, Cmd.begin)] ++ resumes 0 3 ++ [(1, Cmd.begin)] ++ resumes 1 4
    ++ [(0, Cmd.set 5 11)] ++ resumes 0 2 ++ [(1, Cmd.set 5 12)] ++ resumes 1 2
    ++ [(0, Cmd.commit)] ++ resumes 0 5 ++ [(1, Cmd.commit)] ++ resumes 1 33

/-- The first one takes its own steps. -/
def helpedRest : List (ℕ × Cmd) := resumes 0 14

theorem commit_verdict_agreed_helped :
    ∃ c c', run sys init helpedRun = some c ∧ run sys c helpedRest = some c'
      ∧ c.shared.state 0 = .validated ∧ c.shared.state 1 = .aborted
      ∧ c'.shared.state 0 = .validated ∧ c'.shared.state 1 = .aborted
      ∧ ∀ x v, (x, v) ∈ c'.shared.verdicts → c'.shared.state x = v := by
  have hok : StepsMeet sys (onThread Fits) init helpedRun := by decide +kernel
  have hall : StepsMeet sys (onThread Fits) init (helpedRun ++ helpedRest) := by decide +kernel
  have h : (run sys init helpedRun).map (fun c => (c.shared.state 0, c.shared.state 1))
      = some (.validated, .aborted) := by decide +kernel
  have h' : (run sys init (helpedRun ++ helpedRest)).isSome = true := by decide +kernel
  obtain ⟨c, hrun, hst⟩ := Option.map_eq_some_iff.mp h
  obtain ⟨c', hrun'⟩ := Option.isSome_iff_exists.mp h'
  obtain ⟨c₁, hc₁, hrest⟩ := run_append_eq_some.mp hrun'
  rw [hrun] at hc₁
  cases hc₁
  obtain ⟨h0, h1⟩ := Prod.ext_iff.mp hst
  obtain ⟨hkeep, hread⟩ := commit_verdict_agreed hok hrun (hall.of_append hrun) hrest
  refine ⟨c, c', hrun, hrest, h0, h1, ?_, ?_, hread⟩
  · rw [hkeep 0 (Or.inl h0)]
    exact h0
  · rw [hkeep 1 (Or.inr h1)]
    exact h1

/-- A transaction sets key 5 and starts to commit; a reader with the same read version
meets its record, helps it, and stops before it looks up the key.  The owner goes on
alone and stamps its record with the write version. -/
def overturnRun : List (ℕ × Cmd) :=
  [(0, Cmd.begin)] ++ resumes 0 3 ++ [(0, Cmd.set 5 11)] ++ resumes 0 2
    ++ [(1, Cmd.begin)] ++ resumes 1 4 ++ [(0, Cmd.commit)] ++ resumes 0 1
    ++ [(1, Cmd.get 5)] ++ resumes 1 10 ++ resumes 0 14

/-- The reader takes the committed record for a conflict. -/
def overturnRest : List (ℕ × Cmd) := resumes 1 3

/-- A helper overturns the verdict that the owner has read and acted on. -/
theorem helper_overturns_verdict :
    ∃ c c', run sys init overturnRun = some c ∧ run sys c overturnRest = some c'
      ∧ c.shared.state 0 = .validated ∧ c'.shared.state 0 = .aborted
      ∧ (0, State.validated) ∈ c.shared.verdicts := by
  have h : (run sys init overturnRun).map (fun c => (c.shared.state 0, c.shared.verdicts))
      = some (.validated, [(0, .validated), (0, .validated)]) := by decide +kernel
  have h' : (run sys init (overturnRun ++ overturnRest)).map (fun c => c.shared.state 0)
      = some .aborted := by decide +kernel
  obtain ⟨c, hrun, hst⟩ := Option.map_eq_some_iff.mp h
  obtain ⟨c', hrun', hst'⟩ := Option.map_eq_some_iff.mp h'
  obtain ⟨c₁, hc₁, hrest⟩ := run_append_eq_some.mp hrun'
  rw [hrun] at hc₁
  cases hc₁
  obtain ⟨h0, hv⟩ := Prod.ext_iff.mp hst
  refine ⟨c, c', hrun, hrest, h0, hst', ?_⟩
  rw [show c.shared.verdicts = _ from hv]
  exact List.mem_cons_self

end TxnSteps
