/-
# When `cfifo` says full or empty

`cfifo_push` compares the `tail` it loaded with a `head` it loads later, and
`cfifo_pop` a `sentinel` with a later `head`, modulo the buffer size.  When a pop
moves `head` in between, onto the value that is compared with it, the call reports a
full or an empty queue although the queue was neither at any moment of the call:
`false_full_and_false_empty` has a run of each kind.

That is the only thing that goes wrong, next to the pops that find no published
element: in every run in which no head CAS moves `head` onto a counter that another
call has loaded and not yet compared (`Unpassed`), a push that returns -1 saw a full
queue, and a pop that returns `NULL` saw an empty one.
-/
import Ssr.CfifoOwnership

open Interleaving

namespace Cfifo

/-! ## Full and empty -/

/-- `n` elements are in the queue, published or not. -/
def Fifo.Full (n : ℕ) (q : Fifo) : Prop := q.tail = q.head + n

/-- No published element is waiting. -/
def Fifo.Empty (q : Fifo) : Prop := q.sentinel = q.head

instance (n : ℕ) : DecidablePred (Fifo.Full n) :=
  fun q => inferInstanceAs (Decidable (q.tail = q.head + n))

instance : DecidablePred Fifo.Empty :=
  fun q => inferInstanceAs (Decidable (q.sentinel = q.head))

/-- The state before a step: a head CAS that succeeds moves `head` neither onto (modulo
the size) a sentinel that another pop has loaded and not yet compared, unless that
drains the queue, nor onto the index behind a `tail` that a push has loaded and not
yet compared, unless the queue is full. -/
def Unpassed (n : ℕ) (c : Conf Fifo Pc) (e : ℕ × Cmd) : Prop :=
  ∀ h v, c.thread e.1 = .popCas h v → c.shared.head = h →
    (∀ u s, c.thread u = .popHead s → (h + 1) % c.shared.bound = s % c.shared.bound →
        c.shared.sentinel = h + 1)
      ∧ ∀ u x tail, c.thread u = .pushHead x tail →
        (h + 1) % c.shared.bound = (tail + 1) % c.shared.bound → c.shared.Full n

/-- The condition on a step: pops find published elements, and `head` passes no counter
that is about to be compared with it. -/
def Answerable (n : ℕ) (c : Conf Fifo Pc) (e : ℕ × Cmd) : Prop :=
  onThread HeadPublished c e ∧ Unpassed n c e

/-- Only the steps of a pop can fail the condition. -/
theorem answerable_of_not_popping {n : ℕ} {c : Conf Fifo Pc} {e : ℕ × Cmd}
    (h : (c.thread e.1).popping = false) : Answerable n c e := by
  refine ⟨?_, fun k v hpc => ?_⟩
  · unfold onThread HeadPublished
    cases hpc : c.thread e.1 with
    | popHead s =>
      rw [hpc] at h
      cases h
    | _ => trivial
  · rw [hpc] at h
    cases h

/-! ## One call -/

/-- The invariant that the FIFO order rests on. -/
structure Sound (w n : ℕ) (c : Conf Fifo Pc) : Prop where
  core : Core n c.shared
  locals : ∀ u, Local w n u c.shared (c.thread u)

section Call

variable {w n t : ℕ} {c c' : Conf Fifo Pc} {e : ℕ × Cmd}

/-- A step of a run that stays below the last index, with what the run has pushed. -/
structure Within (w : ℕ) (R : ℕ → Prop) (c : Conf Fifo Pc) (e : ℕ × Cmd) : Prop where
  fits : ∀ c' ∈ sys w c e, c'.shared.pushed.length + 1 < 2 ^ w
  values : ∀ c' ∈ sys w c e, ∀ p ∈ c'.shared.pushed, R p.1

theorem sys_pushed_mono (hstep : sys w c e = some c') : c.shared.pushed <+: c'.shared.pushed := by
  obtain ⟨k', hprog, -⟩ := interleave_eq_some.mp hstep
  exact step_pushed_mono hprog

theorem run_pushed_mono {es : List (ℕ × Cmd)} (hrun : run (sys w) c es = some c') :
    c.shared.pushed <+: c'.shared.pushed := by
  induction es generalizing c with
  | nil =>
    cases hrun
    exact List.prefix_rfl
  | cons e es ih =>
    obtain ⟨c₁, h₁, h₂⟩ := run_cons_eq_some.mp hrun
    exact (sys_pushed_mono h₁).trans (ih h₂)

/-- What holds of the pushes of a whole run holds of them at every step. -/
theorem stepsMeet_within {R : ℕ → Prop} {es : List (ℕ × Cmd)} (hrun : run (sys w) c es = some c')
    (hfit : c'.shared.pushed.length + 1 < 2 ^ w) (hval : ∀ p ∈ c'.shared.pushed, R p.1) :
    StepsMeet (sys w) (Within w R) c es := by
  induction es generalizing c with
  | nil => trivial
  | cons e es ih =>
    obtain ⟨c₁, h₁, h₂⟩ := run_cons_eq_some.mp hrun
    have hpre := run_pushed_mono h₂
    refine ⟨⟨fun s' hs' => ?_, fun s' hs' p hp => ?_⟩, fun s' hs' => ?_⟩
    all_goals
      rw [h₁] at hs'
      cases hs'
    · have := hpre.length_le
      omega
    · exact hval p (hpre.subset hp)
    · exact ih h₂

theorem Sound.step (h : Sound w n c) (hok : onThread HeadPublished c e)
    (hfit : c'.shared.pushed.length < 2 ^ w) (hstep : sys w c e = some c') : Sound w n c' := by
  obtain ⟨k', hprog, hthr⟩ := interleave_eq_some.mp hstep
  obtain ⟨hcore, hloc, hrely⟩ := step_guarantee h.core (h.locals e.1) hok hfit hprog
  refine ⟨hcore, fun u => ?_⟩
  rw [hthr]
  by_cases hue : u = e.1
  · subst hue
    rw [Function.update_self]
    exact hloc
  · rw [Function.update_of_ne hue]
    exact (h.locals u).stable (hrely u hue)

/-- `head` moves at a successful head CAS only. -/
theorem head_step_cases {q q' : Fifo} {pc pc' : Pc} {cmd : Cmd}
    (hstep : Cfifo.step w t q pc cmd = some (q', pc')) :
    q'.head = q.head ∧ q'.bound = q.bound
      ∨ ∃ v, pc = .popCas q.head v ∧ q' = { q with head := incr w q.head,
                                                    popped := q.popped ++ [v] } := by
  cases pc with
  | returned r =>
    cases cmd <;> simp only [step, reduceCtorEq, Option.some.injEq, Prod.mk.injEq] at hstep
    all_goals
      rw [← hstep.1]
      exact .inl ⟨rfl, rfl⟩
  | pushTail v | pushStore v tail | pushUsed | popSentinel | popValue h | popUsed v =>
    cases cmd <;> cases hstep
    exact .inl ⟨rfl, rfl⟩
  | pushHead v tail | pushCas v tail | pushSentinel v tail | popHead s =>
    cases cmd <;> simp only [step, reduceCtorEq] at hstep
    split at hstep <;> cases hstep <;> exact .inl ⟨rfl, rfl⟩
  | popCas h v =>
    cases cmd <;> simp only [step, reduceCtorEq] at hstep
    split at hstep <;> cases hstep
    · rename_i hh
      subst hh
      exact .inr ⟨v, rfl, rfl⟩
    · exact .inl ⟨rfl, rfl⟩

/-- A push of thread `t` that has not answered -1, and whose next comparison will not. -/
structure PushGoesOn (w t : ℕ) (c : Conf Fifo Pc) : Prop where
  unanswered : c.thread t ≠ .returned (.push (-1))
  room : ∀ x tail, c.thread t = .pushHead x tail →
    incr w tail % c.shared.bound ≠ c.shared.head % c.shared.bound

/-- A pop of thread `t` that has not answered `NULL`, and whose next comparison will not. -/
structure PopGoesOn (t : ℕ) (c : Conf Fifo Pc) : Prop where
  unanswered : c.thread t ≠ .returned (.pop 0)
  waiting : ∀ s, c.thread t = .popHead s → c.shared.head % c.shared.bound ≠ s % c.shared.bound
  value : ∀ v, c.thread t = .popUsed v → v ≠ 0

/-- Away from its comparison a call goes on. -/
theorem PushGoesOn.of_pc (h : c.thread t ≠ .returned (.push (-1)))
    (h' : ∀ x tail, c.thread t ≠ .pushHead x tail) : PushGoesOn w t c :=
  ⟨h, fun x tail hpc => absurd hpc (h' x tail)⟩

/-- While the queue is not full, a push of `t` goes on. -/
theorem PushGoesOn.step (h : Sound w n c) (hq : PushGoesOn w t c) (hfull : ¬ c.shared.Full n)
    (hpass : Unpassed n c e) (hcall : e.1 = t → e.2 = .resume)
    (hfit : c'.shared.pushed.length + 1 < 2 ^ w) (hstep : sys w c e = some c') :
    PushGoesOn w t c' := by
  have hpre := (sys_pushed_mono hstep).length_le
  have ho := h.core.ordered
  have hlen := h.core.tail_eq
  have hb := h.core.bound
  have hhead := ho.head_le
  have hsen := ho.sentinel_le
  have htail := ho.tail_le
  obtain ⟨k', hprog, hthr⟩ := interleave_eq_some.mp hstep
  by_cases he : e.1 = t
  · have hk' : c'.thread t = k' := by rw [hthr, he, Function.update_self]
    rw [he, hcall he] at hprog
    cases hpc : c.thread t with
    | pushTail x =>
      rw [hpc] at hprog
      obtain ⟨hs, rfl⟩ := Prod.mk.inj (Option.some.inj hprog)
      refine ⟨by rw [hk']; exact Pc.noConfusion, fun x' tail hpc' => ?_⟩
      rw [hk'] at hpc'
      cases hpc'
      rw [← hs, hb, incr_of_lt (by omega)]
      have hne : c.shared.tail ≠ c.shared.head + n := hfull
      exact mod_ne_mod_of_window (a := c.shared.head) (by omega) (by omega) le_rfl (by omega)
        (by omega)
    | pushHead x tail =>
      have hroom := hq.room x tail hpc
      rw [hpc] at hprog
      simp only [Cfifo.step, if_neg hroom, Option.some.injEq, Prod.mk.injEq] at hprog
      apply PushGoesOn.of_pc <;> rw [hk', ← hprog.2]
      · exact Pc.noConfusion
      · exact fun _ _ => Pc.noConfusion
    | returned r =>
      rw [hpc] at hprog
      cases hprog
    | pushStore x tail | pushUsed | popSentinel | popValue k | popUsed v =>
      rw [hpc] at hprog
      obtain ⟨-, rfl⟩ := Prod.mk.inj (Option.some.inj hprog)
      apply PushGoesOn.of_pc <;> rw [hk']
      · simp
      · exact fun _ _ => Pc.noConfusion
    | pushCas x tail | pushSentinel x tail | popHead s | popCas k v =>
      rw [hpc] at hprog
      simp only [Cfifo.step] at hprog
      split at hprog <;> obtain ⟨-, rfl⟩ := Prod.mk.inj (Option.some.inj hprog)
      all_goals
        apply PushGoesOn.of_pc <;> rw [hk']
        · simp
        · exact fun _ _ => Pc.noConfusion
  · -- the other threads can only move `head`
    have hk' : c'.thread t = c.thread t := by rw [hthr, Function.update_of_ne (Ne.symm he)]
    refine ⟨hk' ▸ hq.unanswered, fun x tail hpc => ?_⟩
    rw [hk'] at hpc
    have hroom := hq.room x tail hpc
    have hle : tail ≤ c.shared.tail := by
      have hloc := h.locals t
      rw [hpc] at hloc
      exact hloc
    rcases head_step_cases hprog with ⟨hh, hbound⟩ | ⟨v, hcas, heq⟩
    · rw [hh, hbound]
      exact hroom
    · rw [heq]
      simp only
      rw [incr_of_lt (x := tail) (by omega), incr_of_lt (x := c.shared.head) (by omega)]
      exact fun hmod => hfull ((hpass _ v hcas rfl).2 t x tail hpc hmod.symm)

/-- While the queue is not empty, a pop of `t` goes on, where no `NULL` was pushed. -/
theorem PopGoesOn.step (h : Sound w n c) (hq : PopGoesOn t c) (hempty : ¬ c.shared.Empty)
    (hempty' : ¬ c'.shared.Empty) (hpass : Unpassed n c e) (hcall : e.1 = t → e.2 = .resume)
    (hfit : c'.shared.pushed.length + 1 < 2 ^ w) (hval : ∀ p ∈ c'.shared.pushed, p.1 ≠ 0)
    (hstep : sys w c e = some c') : PopGoesOn t c' := by
  have hpre := sys_pushed_mono hstep
  have hlen' := hpre.length_le
  have ho := h.core.ordered
  have hlen := h.core.tail_eq
  have hb := h.core.bound
  have hhead := ho.head_le
  have hsen := ho.sentinel_le
  have htail := ho.tail_le
  obtain ⟨k', hprog, hthr⟩ := interleave_eq_some.mp hstep
  -- away from its comparison and its end
  have hother : (∀ r, k' = .returned r → r ≠ .pop 0) → (∀ s, k' ≠ .popHead s) →
      (∀ v, k' ≠ .popUsed v) → c'.thread t = k' → PopGoesOn t c' := by
    intro h₁ h₂ h₃ hk'
    refine ⟨fun hret => ?_, fun s hpc => ?_, fun v hpc => ?_⟩
    · exact h₁ _ (hk'.symm.trans hret) rfl
    · exact absurd (hk'.symm.trans hpc) (h₂ s)
    · exact absurd (hk'.symm.trans hpc) (h₃ v)
  by_cases he : e.1 = t
  · have hk' : c'.thread t = k' := by rw [hthr, he, Function.update_self]
    rw [he, hcall he] at hprog
    cases hpc : c.thread t with
    | popSentinel =>
      rw [hpc] at hprog
      obtain ⟨hs, rfl⟩ := Prod.mk.inj (Option.some.inj hprog)
      refine ⟨by rw [hk']; exact Pc.noConfusion, fun s hpc' => ?_, fun v hpc' => ?_⟩
      · rw [hk'] at hpc'
        cases hpc'
        rw [← hs, hb]
        have hne : c.shared.sentinel ≠ c.shared.head := hempty
        exact mod_ne_mod_of_window (a := c.shared.head) le_rfl (by omega) hhead (by omega)
          (by omega)
      · rw [hk'] at hpc'
        cases hpc'
    | popHead s =>
      have hwait := hq.waiting s hpc
      rw [hpc] at hprog
      simp only [Cfifo.step, if_neg hwait, Option.some.injEq, Prod.mk.injEq] at hprog
      refine hother ?_ ?_ ?_ hk' <;> rw [← hprog.2]
      · exact fun _ => Pc.noConfusion
      · exact fun _ => Pc.noConfusion
      · exact fun _ => Pc.noConfusion
    | popCas k v =>
      have hloc := h.locals t
      rw [hpc] at hloc hprog
      simp only [Cfifo.step] at hprog
      split at hprog <;> obtain ⟨hs, rfl⟩ := Prod.mk.inj (Option.some.inj hprog)
      · rename_i hk
        -- the value popped was pushed
        obtain ⟨p, hp, rfl⟩ := Option.map_eq_some_iff.mp (hloc.2 hk.symm).2
        refine ⟨by rw [hk']; exact Pc.noConfusion, fun s hpc' => ?_, fun v hpc' => ?_⟩
        · rw [hk'] at hpc'
          cases hpc'
        · rw [hk'] at hpc'
          cases hpc'
          exact hval p (hpre.subset (List.mem_of_getElem? hp))
      · refine hother ?_ ?_ ?_ hk'
        · exact fun _ => Pc.noConfusion
        · exact fun _ => Pc.noConfusion
        · exact fun _ => Pc.noConfusion
    | popUsed v =>
      have hne := hq.value v hpc
      rw [hpc] at hprog
      obtain ⟨-, rfl⟩ := Prod.mk.inj (Option.some.inj hprog)
      refine hother (fun r hr => ?_) (fun _ => Pc.noConfusion) (fun _ => Pc.noConfusion) hk'
      cases hr
      exact fun hzero => hne (Ret.pop.inj hzero)
    | returned r =>
      rw [hpc] at hprog
      cases hprog
    | pushTail x | pushStore x tail | pushUsed | popValue k =>
      rw [hpc] at hprog
      obtain ⟨-, rfl⟩ := Prod.mk.inj (Option.some.inj hprog)
      refine hother (fun r hr => ?_) (fun _ => Pc.noConfusion) (fun _ => Pc.noConfusion) hk'
      cases hr <;> exact Ret.noConfusion
    | pushHead x tail | pushCas x tail | pushSentinel x tail =>
      rw [hpc] at hprog
      simp only [Cfifo.step] at hprog
      split at hprog <;> obtain ⟨-, rfl⟩ := Prod.mk.inj (Option.some.inj hprog)
      all_goals
        refine hother (fun r hr => ?_) (fun _ => Pc.noConfusion) (fun _ => Pc.noConfusion) hk'
        cases hr <;> exact Ret.noConfusion
  · have hk' : c'.thread t = c.thread t := by rw [hthr, Function.update_of_ne (Ne.symm he)]
    refine ⟨hk' ▸ hq.unanswered, fun s hpc => ?_, fun v hpc => hq.value v (hk' ▸ hpc)⟩
    rw [hk'] at hpc
    have hwait := hq.waiting s hpc
    rcases head_step_cases hprog with ⟨hh, hbound⟩ | ⟨v, hcas, heq⟩
    · rw [hh, hbound]
      exact hwait
    · have hincr : incr w c.shared.head = c.shared.head + 1 := incr_of_lt (by omega)
      rw [heq]
      simp only [hincr]
      intro hmod
      apply hempty'
      rw [heq, Fifo.Empty, hincr]
      exact (hpass _ v hcas rfl).1 t s hpc hmod

end Call

/-! ## The main theorems -/

section Main

variable {w n t : ℕ} {c c' : Conf Fifo Pc}

/-- The first step of a call. -/
theorem start_cases {l : List (ℕ × Cmd)} {cmd : Cmd} (hcmd : cmd ≠ .resume) {c₀ : Conf Fifo Pc}
    (hstart : run (sys w) c₀ (l ++ [(t, cmd)]) = some c) :
    (∃ v, c.thread t = .pushTail v) ∨ c.thread t = .popSentinel := by
  obtain ⟨c₁, -, hlast⟩ := run_append_eq_some.mp hstart
  obtain ⟨c₂, hstep, hnil⟩ := run_cons_eq_some.mp hlast
  cases hnil
  obtain ⟨k', hprog, hthr⟩ := interleave_eq_some.mp hstep
  have hk' : c.thread t = k' := by rw [hthr, Function.update_self]
  rw [hk']
  cases cmd with
  | resume => exact absurd rfl hcmd
  | push v =>
    cases hpc : c₁.thread t with
    | returned r =>
      rw [hpc] at hprog
      obtain ⟨-, rfl⟩ := Prod.mk.inj (Option.some.inj hprog)
      exact .inl ⟨v, rfl⟩
    | _ =>
      rw [hpc] at hprog
      cases hprog
  | pop =>
    cases hpc : c₁.thread t with
    | returned r =>
      rw [hpc] at hprog
      obtain ⟨-, rfl⟩ := Prod.mk.inj (Option.some.inj hprog)
      exact .inr rfl
    | _ =>
      rw [hpc] at hprog
      cases hprog

/-- The invariant holds where a run of the condition ends. -/
theorem sound_run {junk : ℕ → ℕ} {es : List (ℕ × Cmd)} (hsize : n + 1 < 2 ^ w)
    (hrun : run (sys w) (init w n junk) es = some c) (hpushes : c.shared.pushed.length < 2 ^ w)
    (hok : StepsMeet (sys w) (Answerable n) (init w n junk) es) : Sound w n c := by
  have hheld := (relyGuarantee w n).holds_run (init_holds w n hsize junk)
    (hok.mono fun _ _ h => h.1) hrun
  exact ⟨hheld.1 hpushes, fun u => hheld.2 u hpushes⟩

/-- **Full and empty are justified when `head` passes no counter.**  For every capacity
`n` and any number of pushers and poppers, along a run with fewer than `2 ^ w - 1`
pushes whose steps are all `Answerable`, for a call of thread `t` that starts with
`(t, cmd)` and ends with the last step: if it is a push that returns -1, the queue was
full at some moment of the call; if it is a pop that returns `NULL` and no `NULL` was
pushed, the queue was empty at some moment of the call. -/
theorem full_and_empty_justified (w n : ℕ) (hsize : n + 1 < 2 ^ w) (junk : ℕ → ℕ)
    (l m : List (ℕ × Cmd)) (t : ℕ) (cmd : Cmd) (hcmd : cmd ≠ .resume)
    (hm : ∀ e ∈ m, e.1 = t → e.2 = .resume) (c c' : Conf Fifo Pc)
    (hstart : run (sys w) (init w n junk) (l ++ [(t, cmd)]) = some c)
    (hrun : run (sys w) c (m ++ [(t, .resume)]) = some c')
    (hpushes : c'.shared.pushed.length + 1 < 2 ^ w)
    (hok : StepsMeet (sys w) (Answerable n) (init w n junk)
      (l ++ [(t, cmd)] ++ (m ++ [(t, .resume)]))) :
    (c'.thread t = .returned (.push (-1)) →
        Sometime (sys w) (fun c => c.shared.Full n) c (m ++ [(t, .resume)]))
      ∧ (c'.thread t = .returned (.pop 0) → (∀ p ∈ c'.shared.pushed, p.1 ≠ 0) →
          Sometime (sys w) (fun c => c.shared.Empty) c (m ++ [(t, .resume)])) := by
  have hpre := (run_pushed_mono hrun).length_le
  have hcall : ∀ e ∈ m ++ [(t, Cmd.resume)], e.1 = t → e.2 = .resume := by
    intro e he
    rcases List.mem_append.mp he with he | he
    · exact hm e he
    · rw [List.mem_singleton.mp he]
      exact fun _ => rfl
  have hsound : Sound w n c := sound_run hsize hstart (by omega) hok.of_append_left
  have hok := hok.of_append hstart
  have hown : StepsMeet (sys w) (fun _ e => e.1 = t → e.2 = .resume) c (m ++ [(t, .resume)]) :=
    stepsMeet_of_forall_mem hcall c
  have hmeets : ∀ R : ℕ → Prop, (∀ p ∈ c'.shared.pushed, R p.1) →
      StepsMeet (sys w)
        (fun s e => (Answerable n s e ∧ (e.1 = t → e.2 = .resume)) ∧ Within w R s e) c
        (m ++ [(t, .resume)]) := fun R hval =>
    (hok.and hown).and (stepsMeet_within hrun hpushes hval)
  have hkeep : ∀ (R : ℕ → Prop) s e s', Sound w n s →
      (Answerable n s e ∧ (e.1 = t → e.2 = .resume)) ∧ Within w R s e →
      sys w s e = some s' → Sound w n s' := by
    intro R s e s' hs hmeet hstep
    have hfit := hmeet.2.fits s' hstep
    exact hs.step hmeet.1.1.1 (by omega) hstep
  have hpc := start_cases hcmd hstart
  constructor
  · intro hret
    have hgo : PushGoesOn w t c := by
      obtain ⟨v, hpc⟩ | hpc := hpc
      all_goals
        apply PushGoesOn.of_pc <;> rw [hpc]
        · exact Pc.noConfusion
        · exact fun _ _ => Pc.noConfusion
    refine (sometime_or_of_run (hkeep _) ?_ hsound hgo (hmeets (fun _ => True) fun _ _ => trivial)
      hrun).resolve_right fun h => h.unanswered hret
    intro s e s' hs hq hfull _ hmeet hstep
    exact hq.step hs hfull hmeet.1.1.2 hmeet.1.2 (hmeet.2.fits s' hstep) hstep
  · intro hret hval
    have hgo : PopGoesOn t c := by
      obtain ⟨v, hpc⟩ | hpc := hpc
      all_goals refine ⟨?_, fun s h => ?_, fun v h => ?_⟩
      all_goals first
        | rw [hpc]; exact Pc.noConfusion
        | rw [hpc] at h; cases h
    refine (sometime_or_of_run (hkeep _) ?_ hsound hgo (hmeets (fun v => v ≠ 0) hval)
      hrun).resolve_right fun h => h.unanswered hret
    intro s e s' hs hq hempty hempty' hmeet hstep
    exact hq.step hs hempty hempty' hmeet.1.1.2 hmeet.1.2 (hmeet.2.fits s' hstep)
      (hmeet.2.values s' hstep) hstep

end Main

/-! ## Runs of each kind -/

/-- A push that fills a queue of capacity 1, and one that is turned away. -/
def fullStart : List (ℕ × Cmd) :=
  [(1, .push 7), (1, .resume), (1, .resume), (1, .resume), (1, .resume), (1, .resume), (1, .resume)]

theorem full_and_empty_justified_full :
    ∃ c c', run (sys 64) (init 64 1 fun _ => 0) (fullStart ++ [(0, .push 8)]) = some c
      ∧ run (sys 64) c ([(0, .resume)] ++ [(0, .resume)]) = some c'
      ∧ c'.thread 0 = .returned (.push (-1))
      ∧ Sometime (sys 64) (fun c => c.shared.Full 1) c ([(0, .resume)] ++ [(0, .resume)]) := by
  obtain ⟨c, hc⟩ : ∃ c, run (sys 64) (init 64 1 fun _ => 0) (fullStart ++ [(0, .push 8)]) = some c :=
    ⟨_, rfl⟩
  obtain ⟨c', hc'⟩ : ∃ c', run (sys 64) c ([(0, .resume)] ++ [(0, .resume)]) = some c' := by
    cases hc
    exact ⟨_, rfl⟩
  have hret : c'.thread 0 = .returned (.push (-1)) := by
    cases hc
    cases hc'
    rfl
  have hlen : c'.shared.pushed.length + 1 < 2 ^ 64 := by
    cases hc
    cases hc'
    decide
  refine ⟨c, c', hc, hc', hret, ?_⟩
  have hpushing : StepsMeet (sys 64) (fun c e => (c.thread e.1).popping = false)
      (init 64 1 fun _ => 0) (fullStart ++ [(0, .push 8)] ++ ([(0, .resume)] ++ [(0, .resume)])) := by
    decide
  exact (full_and_empty_justified 64 1 (by decide) (fun _ => 0) fullStart [(0, .resume)] 0 (.push 8)
    (by decide) (by decide) c c' hc hc' hlen
    (hpushing.mono fun _ _ => answerable_of_not_popping)).1 hret

/-- Thread 0 loads `tail = 0`; an element goes in and out; thread 0 compares 1 with 1. -/
def falseFullRun : List (ℕ × Cmd) :=
  [(0, .resume),
   (1, .push 7), (1, .resume), (1, .resume), (1, .resume), (1, .resume), (1, .resume),
   (1, .resume),
   (2, .pop), (2, .resume), (2, .resume), (2, .resume), (2, .resume), (2, .resume),
   (0, .resume)]

/-- One element is in; thread 0 loads `sentinel = 1`; a second element goes in, the first
goes out; thread 0 compares 1 with 1. -/
def falseEmptyRun : List (ℕ × Cmd) :=
  [(0, .resume),
   (1, .push 8), (1, .resume), (1, .resume), (1, .resume), (1, .resume), (1, .resume),
   (1, .resume),
   (2, .pop), (2, .resume), (2, .resume), (2, .resume), (2, .resume), (2, .resume),
   (0, .resume)]

/-- On a queue of capacity 3 a push answers -1 while at most one element was ever in it,
and a pop answers `NULL` while at least one element was in it all the time. -/
theorem false_full_and_false_empty :
    (∃ c c', run (sys 64) (init 64 3 fun _ => 0) [(0, .push 5)] = some c
        ∧ run (sys 64) c falseFullRun = some c' ∧ c'.thread 0 = .returned (.push (-1))
        ∧ ¬ Sometime (sys 64) (fun c => c.shared.Full 3) c falseFullRun)
      ∧ ∃ c c', run (sys 64) (init 64 3 fun _ => 0) (fullStart ++ [(0, .pop)]) = some c
        ∧ run (sys 64) c falseEmptyRun = some c' ∧ c'.thread 0 = .returned (.pop 0)
        ∧ (∀ p ∈ c'.shared.pushed, p.1 ≠ 0)
        ∧ ¬ Sometime (sys 64) (fun c => c.shared.Empty) c falseEmptyRun := by
  refine ⟨⟨_, _, rfl, rfl, ?_, ?_⟩, _, _, rfl, rfl, ?_, ?_, ?_⟩ <;> decide

end Cfifo
