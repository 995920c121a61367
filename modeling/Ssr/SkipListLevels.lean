/-
# The levels of the skiplist

`random_levels` compares the number it drew with `high_water` and raises `high_water`
in a later step, and the clamp to `MAX_LEVELS` is on the height it returns only.  What
`find_preds` reads on the sentinel, and what it records in the arrays of its callers,
is bounded by `high_water`.

* The heights returned are always between 1 and `high_water`, and at most `MAX_LEVELS`.
* `high_water` stays within `MAX_LEVELS`, and with it every level index, exactly if each
  increment finds room (`levels_within_iff`).  No draw asks for more than 20 levels, so the
  threads that got past the check while `high_water` was below 20 can take it to
  `19` plus their number: within `MAX_LEVELS` for five threads, above it for six
  (`six_threads_above_max_levels`).
-/
import Ssr.SkipList

open Interleaving Map

namespace SkipList

/-! ## The levels in use -/

/-- The level index that a thread is about to use: `find_preds` on the `next` array of
its `pred` (at first the sentinel) and then on the arrays of its caller, `sl_cas` on its
arrays `preds` and `nexts`. -/
def Pc.levelIndex : Pc → Option ℕ
  | .findPred _ f | .findNext _ f _ | .findUnlink _ f _ _ | .findKey _ f _ _ => some f.level
  | .casLink _ _ level => some level
  | .casReload _ _ _ i | .casStore _ _ _ i _ => some i
  | _ => none

/-- `high_water` and the level indices are within bounds, and so is the height with which
`sl_cas` starts its search. -/
structure Within (c : Conf Heap Pc) : Prop where
  high_water : c.shared.highWater ≤ maxLevels
  index : ∀ u l, (c.thread u).levelIndex = some l → l < maxLevels
  height : ∀ u args n path, c.thread u = .findStart (.cas args n) path →
    1 ≤ n ∧ n ≤ c.shared.highWater

/-- A height that `random_levels` may have returned. -/
def Height (water n : ℕ) : Prop := 1 ≤ n ∧ n ≤ water ∧ n ≤ maxLevels

/-- What the caller of `find_preds` has asked for. -/
def Caller.Leveled (water : ℕ) : Caller → Prop
  | .cas _ n => Height water n
  | .relink _ _ n level => Height water n ∧ level < n
  | .remove _ n => n ≤ water
  | _ => True

/-- What a thread knows about `high_water` where it stands. -/
def Pc.Leveled (water : ℕ) : Pc → Prop
  | .findStart c _ => c.Leveled water
  | .findPred c f | .findNext c f _ | .findUnlink c f _ _ | .findKey c f _ _ =>
    c.Leveled water ∧ f.level < water
  | .casHighWater _ levels => 1 ≤ levels ∧ levels ≤ 20
  | .casAlloc _ n _ => Height water n
  | .casBottom _ ins | .casCheck _ ins => Height water ins.n
  | .casLink _ ins level => Height water ins.n ∧ level < ins.n
  | .casReload _ ins level i | .casStore _ ins level i _ =>
    Height water ins.n ∧ level < ins.n ∧ i < ins.n
  | _ => True

/-! ## One step -/

section Step

variable {water water' : ℕ}

/-- A height stays one when `high_water` is raised. -/
theorem Height.mono {n : ℕ} (h : Height water n) (hw : water ≤ water') : Height water' n :=
  ⟨h.1, h.2.1.trans hw, h.2.2⟩

/-- So do the levels of the caller. -/
theorem Caller.Leveled.mono {c : Caller} (h : c.Leveled water) (hw : water ≤ water') :
    c.Leveled water' := by
  cases c with
  | cas args n => exact Height.mono h hw
  | relink key newItem n level => exact ⟨h.1.mono hw, h.2⟩
  | remove key n => exact h.trans hw
  | lookup key | clean key | unlinkRemoved key item val => trivial

/-- So do those of the thread. -/
theorem Pc.Leveled.mono {pc : Pc} (h : pc.Leveled water) (hw : water ≤ water') :
    pc.Leveled water' := by
  cases pc with
  | findStart c path => exact Caller.Leveled.mono h hw
  | findPred c f | findNext c f i | findUnlink c f i l | findKey c f i l =>
    exact ⟨h.1.mono hw, h.2.trans_le hw⟩
  | casHighWater args levels => exact h
  | casAlloc args n path => exact Height.mono h hw
  | casBottom args ins | casCheck key ins => exact Height.mono h hw
  | casLink key ins level => exact ⟨h.1.mono hw, h.2⟩
  | casReload key ins level i | casStore key ins level i old => exact ⟨h.1.mono hw, h.2⟩
  | _ => trivial

/-- An insertion goes on with its upper levels. -/
theorem linkLevel_leveled {key : ℕ} {ins : Insert} (h : Height water ins.n) (level : ℕ) :
    (linkLevel key ins level).Leveled water := by
  unfold linkLevel
  split
  · exact ⟨h, ‹_›⟩
  · exact h

/-- So it does after a level. -/
theorem reloadLevel_leveled {key level : ℕ} {ins : Insert} (h : Height water ins.n)
    (hl : level < ins.n) (i : ℕ) : (reloadLevel key ins level i).Leveled water := by
  unfold reloadLevel
  split
  · exact ⟨h, hl, ‹_›⟩
  · exact ⟨h, hl⟩

/-- A removal marks the next level below. -/
theorem markLevel_leveled (key item level : ℕ) : (markLevel key item level).Leveled water := by
  cases level <;> trivial

/-- A search returns to its caller. -/
theorem resume_leveled {c : Caller} (h : c.Leveled water) (path : Path) (item : Option ℕ) :
    (resume c path item).Leveled water := by
  cases c with
  | lookup key | remove key n => cases item <;> trivial
  | cas args n =>
    cases item with
    | some i => trivial
    | none =>
      simp only [resume]
      split
      · trivial
      · exact h
  | relink key newItem n level => exact reloadLevel_leveled h.1 h.2 level
  | clean key | unlinkRemoved key item val => trivial

/-- A search goes down. -/
theorem descend_leveled {c : Caller} (h : c.Leveled water) (f : Find) {level : ℕ}
    (hl : level ≤ water) : (descend c f level).Leveled water := by
  cases level with
  | zero => exact resume_leveled h f.path _
  | succ level => exact ⟨h, hl⟩

/-- A level is done. -/
theorem levelDone_leveled {c : Caller} (h : c.Leveled water) {f : Find} (hf : f.level < water)
    (item : Option ℕ) : (levelDone c f item).Leveled water :=
  descend_leveled h _ hf.le

/-- A search comes to a node. -/
theorem visit_leveled {c : Caller} (h : c.Leveled water) {f : Find} (hf : f.level < water)
    (item : Option ℕ) : (visit c f item).Leveled water := by
  cases item with
  | some i => exact ⟨h, hf⟩
  | none => exact levelDone_leveled h hf none

/-- A search has loaded the link of a node. -/
theorem examine_leveled {c : Caller} (h : c.Leveled water) {f : Find} (hf : f.level < water)
    (item : ℕ) (next : LinkedList.Link) : (examine c f item next).Leveled water := by
  unfold examine
  split
  · split
    · exact visit_leveled h hf next.node
    · exact ⟨h, hf⟩
  · exact ⟨h, hf⟩

variable {h h' : Heap} {pc pc' : Pc} {cmd : Cmd}

/-- Only the increment of `random_levels` changes `high_water`. -/
theorem step_highWater (hstep : step h pc cmd = some (h', pc')) :
    h'.highWater = h.highWater ∨ ∃ args, pc = .casRaise args ∧ h'.highWater = h.highWater + 1 := by
  cases pc with
  | returned v =>
    cases cmd with
    | call op => cases op <;> cases hstep <;> exact .inl rfl
    | rand z | resume => cases hstep
  | findStart c path | findNext c f item | lookupVal item | removeHighWater key
  | removeLevels key item | removeNext key item level | removeSwap key item
  | removeDefer item val | casAlloc args n path =>
    cases cmd <;> cases hstep
    exact .inl rfl
  | casRaise args =>
    cases cmd <;> cases hstep
    exact .inr ⟨args, rfl, rfl⟩
  | casRandom args | findPred c f | findUnlink c f item next | findKey c f item next
  | casHighWater args levels | casVal args item | casUpdate args item old | casBottom args ins
  | casLink key ins level | casReload key ins level i | casCheck key ins
  | casStore key ins level i old | removeMark key item level next =>
    cases cmd <;> simp only [step, reduceCtorEq] at hstep
    repeat' split at hstep
    all_goals
      cases hstep
      try exact .inl rfl

/-- A step keeps what its thread knows. -/
theorem step_leveled (hw : 1 ≤ h.highWater) (hpc : pc.Leveled h.highWater)
    (hstep : step h pc cmd = some (h', pc')) : pc'.Leveled h'.highWater := by
  cases pc with
  | casRaise args =>
    cases cmd <;> cases hstep
    refine ⟨?_, Nat.min_le_left _ _, Nat.min_le_right _ _⟩
    exact le_min (Nat.le_add_left 1 _) (by decide)
  | returned v =>
    cases cmd with
    | call op => cases op <;> cases hstep <;> trivial
    | rand z | resume => cases hstep
  | lookupVal item | removeNext key item level | removeSwap key item | removeDefer item val =>
    cases cmd <;> cases hstep
    trivial
  | removeHighWater key =>
    cases cmd <;> cases hstep
    exact le_rfl
  | removeLevels key item =>
    cases cmd <;> cases hstep
    exact markLevel_leveled ..
  | removeMark key item level next =>
    cases cmd <;> simp only [step, reduceCtorEq] at hstep
    repeat' split at hstep
    all_goals
      cases hstep
      first
        | trivial
        | exact markLevel_leveled ..
  | findStart c path =>
    cases cmd <;> cases hstep
    exact descend_leveled hpc _ le_rfl
  | findNext c f item =>
    cases cmd <;> cases hstep
    exact examine_leveled hpc.1 hpc.2 ..
  | findPred c f | findUnlink c f item next =>
    obtain ⟨hc, hf⟩ := hpc
    cases cmd <;> simp only [step, reduceCtorEq] at hstep
    repeat' split at hstep
    all_goals
      cases hstep
      first
        | exact hc
        | exact descend_leveled hc _ hf.le
        | exact visit_leveled hc hf _
  | findKey c f item next =>
    obtain ⟨hc, hf⟩ := hpc
    cases cmd <;> simp only [step, reduceCtorEq] at hstep
    split at hstep <;> cases hstep
    · apply levelDone_leveled hc
      exact hf
    · apply visit_leveled hc
      exact hf
  | casRandom args =>
    cases cmd <;> simp only [step, reduceCtorEq] at hstep
    repeat' split at hstep
    all_goals cases hstep
    · exact ⟨le_rfl, hw, by decide⟩
    · refine ⟨?_, ?_⟩ <;> omega
  | casHighWater args levels =>
    obtain ⟨hpos, hle⟩ := hpc
    cases cmd <;> simp only [step, reduceCtorEq] at hstep
    split at hstep <;> cases hstep
    · trivial
    · refine ⟨le_min hpos (by decide), ?_, Nat.min_le_right _ _⟩
      exact (Nat.min_le_left _ _).trans (not_lt.mp ‹_›)
  | casVal args item | casUpdate args item old =>
    cases cmd <;> simp only [step, reduceCtorEq] at hstep
    repeat' split at hstep
    all_goals
      cases hstep
      trivial
  | casAlloc args n path =>
    cases cmd <;> cases hstep
    exact hpc
  | casBottom args ins =>
    cases cmd <;> simp only [step, reduceCtorEq] at hstep
    split at hstep <;> cases hstep
    · exact linkLevel_leveled hpc 1
    · trivial
  | casLink key ins level =>
    cases cmd <;> simp only [step, reduceCtorEq] at hstep
    split at hstep <;> cases hstep
    · exact linkLevel_leveled hpc.1 _
    · exact hpc
  | casReload key ins level i =>
    cases cmd <;> simp only [step, reduceCtorEq] at hstep
    split at hstep <;> cases hstep
    · exact reloadLevel_leveled hpc.1 hpc.2.1 _
    · exact hpc
  | casStore key ins level i old =>
    cases cmd <;> simp only [step, reduceCtorEq] at hstep
    repeat' split at hstep
    all_goals
      cases hstep
      first
        | trivial
        | exact reloadLevel_leveled hpc.1 hpc.2.1 _
  | casCheck key ins =>
    cases cmd <;> simp only [step, reduceCtorEq] at hstep
    split at hstep <;> cases hstep <;> trivial

/-- Between the check and the increment. -/
def Pc.raising : Pc → ℕ
  | .casRaise _ => 1
  | _ => 0

/-- A thread raises `high_water` by one at most. -/
theorem Pc.raising_le (pc : Pc) : pc.raising ≤ 1 := by
  unfold Pc.raising
  split <;> omega

/-- An insertion that links does not raise it. -/
@[simp] theorem linkLevel_raising (key : ℕ) (ins : Insert) (level : ℕ) :
    (linkLevel key ins level).raising = 0 := by
  unfold linkLevel
  split <;> rfl

/-- Nor does one that reloads. -/
@[simp] theorem reloadLevel_raising (key : ℕ) (ins : Insert) (level i : ℕ) :
    (reloadLevel key ins level i).raising = 0 := by
  unfold reloadLevel
  split <;> rfl

/-- Nor does a removal. -/
@[simp] theorem markLevel_raising (key item level : ℕ) :
    (markLevel key item level).raising = 0 := by
  cases level <;> rfl

/-- Nor does a search that returns. -/
@[simp] theorem resume_raising (c : Caller) (path : Path) (item : Option ℕ) :
    (resume c path item).raising = 0 := by
  cases c with
  | lookup key | remove key n => cases item <;> rfl
  | cas args n =>
    cases item with
    | some i => rfl
    | none =>
      simp only [resume]
      split <;> rfl
  | relink key newItem n level => exact reloadLevel_raising ..
  | clean key | unlinkRemoved key item val => rfl

/-- Nor does one that goes down. -/
@[simp] theorem descend_raising (c : Caller) (f : Find) (level : ℕ) :
    (descend c f level).raising = 0 := by
  cases level with
  | zero => exact resume_raising ..
  | succ level => rfl

/-- Nor does one that comes to a node. -/
@[simp] theorem visit_raising (c : Caller) (f : Find) (item : Option ℕ) :
    (visit c f item).raising = 0 := by
  cases item with
  | some i => rfl
  | none => exact descend_raising ..

/-- Nor does one that has loaded a link. -/
@[simp] theorem examine_raising (c : Caller) (f : Find) (item : ℕ) (next : LinkedList.Link) :
    (examine c f item next).raising = 0 := by
  unfold examine
  split
  · split
    · exact visit_raising ..
    · rfl
  · rfl

/-- The check lets a thread through while `high_water` is below the 20 levels that a draw
asks for at most. -/
theorem raising_step (hpc : pc.Leveled h.highWater) (hstep : step h pc cmd = some (h', pc'))
    (hpos : pc'.raising ≠ 0) : h.highWater ≤ 19 := by
  cases pc with
  | casHighWater args levels =>
    have hle : levels ≤ 20 := hpc.2
    cases cmd <;> simp only [step, reduceCtorEq] at hstep
    split at hstep <;> cases hstep
    · omega
    · exact absurd rfl hpos
  | returned v =>
    cases cmd with
    | call op => cases op <;> cases hstep <;> exact absurd rfl hpos
    | rand z | resume => cases hstep
  | casRandom args | findStart c path | findPred c f | findNext c f item
  | findUnlink c f item next | findKey c f item next | lookupVal item | casRaise args
  | casVal args item | casUpdate args item old | casAlloc args n path | casBottom args ins
  | casLink key ins level | casReload key ins level i | casStore key ins level i old
  | casCheck key ins | removeHighWater key | removeLevels key item | removeNext key item level
  | removeMark key item level next | removeSwap key item | removeDefer item val =>
    cases cmd <;> simp only [step, reduceCtorEq] at hstep
    repeat' split at hstep
    all_goals cases hstep
    all_goals
      refine absurd ?_ hpos
      first
        | rfl
        | exact linkLevel_raising ..
        | exact reloadLevel_raising ..
        | exact markLevel_raising ..
        | exact descend_raising ..
        | exact visit_raising ..
        | exact examine_raising ..

/-- A thread gets past the check while `high_water` is below 20 only, and otherwise each
thread that waits makes one increment. -/
theorem step_raising (hpc : pc.Leveled h.highWater) (hstep : step h pc cmd = some (h', pc')) :
    h'.highWater + pc'.raising ≤ h.highWater + pc.raising ∨ h'.highWater ≤ 19 := by
  obtain heq | ⟨args, rfl, heq⟩ := step_highWater hstep
  · rw [heq]
    by_cases hpos : pc'.raising = 0
    · left
      omega
    · right
      exact raising_step hpc hstep hpos
  · cases cmd <;> cases hstep
    exact .inl le_rfl

end Step

/-! ## Whole runs -/

/-- The state before an increment of `high_water`: there is room for one more level. -/
def Room (c : Conf Heap Pc) (e : ℕ × Cmd) : Prop :=
  match c.thread e.1 with
  | .casRaise _ => c.shared.highWater < maxLevels
  | _ => True

/-- The invariant of all runs. -/
structure Leveled (c : Conf Heap Pc) : Prop where
  water_pos : 1 ≤ c.shared.highWater
  threads : ∀ u, (c.thread u).Leveled c.shared.highWater

section Run

variable {c c' : Conf Heap Pc} {e : ℕ × Cmd}

/-- **One step** keeps the levels in their bounds. -/
theorem Leveled.step (hc : Leveled c) (hstep : sys c e = some c') : Leveled c' := by
  obtain ⟨k', hprog, hthr⟩ := interleave_eq_some.mp hstep
  have hmono : c.shared.highWater ≤ c'.shared.highWater := by
    obtain heq | ⟨-, -, heq⟩ := step_highWater hprog <;> omega
  refine ⟨hc.water_pos.trans hmono, fun u => ?_⟩
  rw [hthr]
  by_cases hu : u = e.1
  · subst hu
    rw [Function.update_self]
    exact step_leveled hc.water_pos (hc.threads _) hprog
  · rw [Function.update_of_ne hu]
    exact (hc.threads u).mono hmono

/-- They are at the start. -/
theorem init_leveled : Leveled init := ⟨le_rfl, fun _ => trivial⟩

/-- The level indices follow `high_water`. -/
theorem Pc.Leveled.levelIndex_lt {pc : Pc} {water l : ℕ} (h : pc.Leveled water)
    (hl : pc.levelIndex = some l) (hw : water ≤ maxLevels) : l < maxLevels := by
  cases pc with
  | findPred c f | findNext c f i | findUnlink c f i k | findKey c f i k =>
    cases hl
    exact h.2.trans_le hw
  | casLink key ins level =>
    cases hl
    exact h.2.trans_le h.1.2.2
  | casReload key ins level i | casStore key ins level i old =>
    cases hl
    exact h.2.2.trans_le h.1.2.2
  | _ => cases hl

/-- Only `high_water` can be out of bounds. -/
theorem Leveled.within_iff (hc : Leveled c) : Within c ↔ c.shared.highWater ≤ maxLevels := by
  refine ⟨Within.high_water, fun hw => ⟨hw, fun u l hl => (hc.threads u).levelIndex_lt hl hw, ?_⟩⟩
  intro u args n path hpc
  have h := hc.threads u
  rw [hpc] at h
  exact ⟨h.1, h.2.1⟩

/-- **One step** goes out of bounds when it raises it from `MAX_LEVELS`. -/
theorem Leveled.within_step_iff (hc : Leveled c) (hw : Within c) (hstep : sys c e = some c') :
    Within c' ↔ Room c e := by
  rw [(hc.step hstep).within_iff]
  obtain ⟨k', hprog, -⟩ := interleave_eq_some.mp hstep
  unfold Room
  cases hpc : c.thread e.1 with
  | casRaise args =>
    rw [hpc] at hprog
    cases hcmd : e.2 <;> rw [hcmd] at hprog
    · cases hprog
    · cases hprog
    · have hs := (Prod.mk.inj (Option.some.inj hprog)).1
      rw [← hs]
      exact Iff.rfl
  | _ =>
    obtain heq | ⟨args, hraise, -⟩ := step_highWater hprog
    · exact iff_of_true (heq.trans_le hw.high_water) trivial
    · rw [hpc] at hraise
      cases hraise

/-- With the threads past the check that are still to make their increment, of the `T` threads
below `T`. -/
def Crowded (T : ℕ) (c : Conf Heap Pc) : Prop :=
  c.shared.highWater + ∑ u ∈ Finset.range T, (c.thread u).raising ≤ 19 + T

/-- Each of `T` threads raises it once too often at most. -/
theorem Crowded.step {T : ℕ} (hc : Leveled c) (h : Crowded T c) (he : e.1 < T)
    (hstep : sys c e = some c') : Crowded T c' := by
  obtain ⟨k', hprog, hthr⟩ := interleave_eq_some.mp hstep
  have hsum := sum_thread_update Pc.raising c.thread (Finset.mem_range.mpr he) k'
  rw [← hthr] at hsum
  unfold Crowded at h ⊢
  obtain hkeep | hlow := step_raising (hc.threads e.1) hprog
  · omega
  · have hall : ∑ u ∈ Finset.range T, (c'.thread u).raising ≤ ∑ _u ∈ Finset.range T, 1 :=
      Finset.sum_le_sum fun u _ => Pc.raising_le _
    rw [Finset.sum_const, Finset.card_range, smul_eq_mul, mul_one] at hall
    omega

/-- Five threads cannot crowd the check enough to fill all the room. -/
theorem Crowded.room (h : Crowded 5 c) (he : e.1 < 5) : Room c e := by
  unfold Room
  split
  · rename_i args hpc
    have hone : (c.thread e.1).raising = 1 := by
      rw [hpc]
      rfl
    have hle : (c.thread e.1).raising ≤ ∑ u ∈ Finset.range 5, (c.thread u).raising :=
      Finset.single_le_sum (f := fun u => (c.thread u).raising) (fun _ _ => Nat.zero_le _)
        (Finset.mem_range.mpr he)
    unfold Crowded at h
    unfold maxLevels
    omega
  · trivial

/-- None has at the start. -/
theorem init_crowded (T : ℕ) (hT : 0 < T) : Crowded T init := by
  simp [Crowded, init, Pc.raising]
  omega

end Run

/-- **The levels of the skiplist.**  For any number of threads, draws and interleavings:
`high_water` and every level index stay within `MAX_LEVELS`, and the heights returned
between 1 and `high_water`, in all states of a run exactly if every increment of
`high_water` finds room; and among five threads it always does. -/
theorem levels_within_iff (es : List (ℕ × Cmd)) (c : Conf Heap Pc)
    (hrun : run sys init es = some c) :
    ((∀ pre post c', es = pre ++ post → run sys init pre = some c' → Within c')
        ↔ StepsMeet sys Room init es)
      ∧ ((∀ e ∈ es, e.1 < 5) → StepsMeet sys Room init es) := by
  have hinit : Within init := init_leveled.within_iff.mpr (by decide)
  refine ⟨?_, fun hfive => ?_⟩
  · exact always_iff_stepsMeet (E := fun _ => True)
      (fun s e s' hs hP _ hstep => ⟨hs.step hstep, hs.within_step_iff hP hstep⟩)
      init_leveled hinit (fun _ _ => trivial) hrun
  · have hkeep : ∀ (s : Conf Heap Pc) (e : ℕ × Cmd) s', Leveled s ∧ Crowded 5 s → e.1 < 5 →
        sys s e = some s' → Leveled s' ∧ Crowded 5 s' :=
      fun s e s' hs he hstep => ⟨hs.1.step hstep, hs.2.step hs.1 he hstep⟩
    have hroom : ∀ (s : Conf Heap Pc) (e : ℕ × Cmd), Leveled s ∧ Crowded 5 s → e.1 < 5 →
        Room s e := fun s e hs he => hs.2.room he
    exact stepsMeet_of_invariant hkeep hroom ⟨init_leveled, init_crowded 5 (by decide)⟩ hfive

/-- A call of `sl_cas` that raises `high_water` to `water` and finds no key. -/
def raisingCall (water : ℕ) : List (ℕ × Cmd) :=
  [(0, Cmd.call (.cas ⟨7, expectExists, 5⟩)), (0, Cmd.rand 31)]
    ++ List.replicate (water + 3) (0, Cmd.resume)

/-- Three threads get past the check with `high_water` at 1, and each makes its increment; then
the first two do so again. -/
def overlappingRaises : List (ℕ × Cmd) :=
  (List.range 3).flatMap (fun u =>
      [(u, Cmd.call (.cas ⟨u + 5, expectExists, 5⟩)), (u, Cmd.rand 31), (u, Cmd.resume)])
    ++ [(2, Cmd.resume), (0, Cmd.resume), (1, Cmd.resume)]
    ++ (List.range 2).flatMap (fun u => List.replicate 5 (u, Cmd.resume))
    ++ (List.range 2).flatMap (fun u =>
      [(u, Cmd.call (.cas ⟨u + 5, expectExists, 5⟩)), (u, Cmd.rand 31), (u, Cmd.resume)])
    ++ [(1, Cmd.resume), (0, Cmd.resume), (2, Cmd.resume), (1, Cmd.resume)]

/-- Threads that overlap in `random_levels` raise `high_water` together. -/
theorem levels_within_overlapping :
    ∃ c, run sys init overlappingRaises = some c ∧ c.shared.highWater = 6
      ∧ ∀ pre post c', overlappingRaises = pre ++ post → run sys init pre = some c' →
        Within c' := by
  obtain ⟨c, hc⟩ : ∃ c, run sys init overlappingRaises = some c := ⟨_, rfl⟩
  obtain ⟨hiff, hfive⟩ := levels_within_iff overlappingRaises c hc
  refine ⟨c, hc, ?_, hiff.mpr (hfive (by decide))⟩
  cases hc
  rfl

/-- Thread 0 raises `high_water` to 19; then six threads get past the check, and each makes
its increment. -/
def crowdedRun : List (ℕ × Cmd) :=
  (List.range 18).flatMap (fun k => raisingCall (k + 2))
    ++ (List.range 6).flatMap (fun u =>
      [(u, Cmd.call (.cas ⟨7, expectExists, 5⟩)), (u, Cmd.rand 31), (u, Cmd.resume)])
    ++ (List.range 6).map fun u => (u, Cmd.resume)

/-- With six threads `high_water` reaches 25, one above `MAX_LEVELS`, and `find_preds` starts
at level 24 of the sentinel. -/
theorem six_threads_above_max_levels :
    (∀ e ∈ crowdedRun, e.1 < 6)
      ∧ ∃ c, run sys init (crowdedRun ++ [(5, .resume)]) = some c
        ∧ c.shared.highWater = 25 ∧ (c.thread 5).levelIndex = some 24 := by
  refine ⟨by decide +kernel, ?_⟩
  obtain ⟨c, hc, heq⟩ := Option.map_eq_some_iff.mp (show
    (run sys init (crowdedRun ++ [(5, .resume)])).map
        (fun c => (c.shared.highWater, (c.thread 5).levelIndex)) = some (25, some 24) by
      decide +kernel)
  obtain ⟨hwater, hlevel⟩ := Prod.mk.inj heq
  exact ⟨c, hc, hwater, hlevel⟩

end SkipList
