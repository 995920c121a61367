/-
# FIFO safety of `cfifo`

`cfifo_pop` reads `sentinel` before `head` and compares the two only modulo the
buffer size.  When another pop moves `head` past the sentinel value it read, the
comparison takes a drained queue for a non-empty one, and the pop advances `head`
over an element that was never pushed.  `stale_sentinel_overruns` is such a run
with one push and two pops.

That is the only thing that goes wrong.  In every run in which each pop that
passes its emptiness test finds a published element at `head`
(`HeadPublished`), the queue is a FIFO of capacity `n`, for any number of
pushers and poppers; and whenever the condition fails, three more steps of that
pop suffice to break the order (`fifo_order_iff_head_published`).

The invariant: between `head` and `sentinel` every slot holds the value of its
push, and the indices between `sentinel` and `tail` belong each to the one push
that claimed it and has not published it yet.
-/
import Ssr.Cfifo

open Interleaving

namespace Cfifo

/-! ## Slots of a window are distinct -/

/-- Two different indices of a window of `m` indices use different slots. -/
theorem mod_ne_mod_of_window {m a i j : ℕ} (hi : a ≤ i) (hi' : i < a + m) (hj : a ≤ j)
    (hj' : j < a + m) (hne : i ≠ j) : i % m ≠ j % m := by
  intro h
  rcases Nat.lt_or_gt_of_ne hne with hlt | hlt
  · have hdvd : m ∣ j - i := (Nat.modEq_iff_dvd' hlt.le).mp h
    have := Nat.le_of_dvd (by omega) hdvd
    omega
  · have hdvd : m ∣ i - j := (Nat.modEq_iff_dvd' hlt.le).mp h.symm
    have := Nat.le_of_dvd (by omega) hdvd
    omega

/-- `size_t` increment below the last value does not wrap. -/
theorem incr_of_lt {w x : ℕ} (h : x + 1 < 2 ^ w) : incr w x = x + 1 :=
  Nat.mod_eq_of_lt h

/-! ## The invariant -/

/-- The shared part of the invariant. -/
structure Core (n : ℕ) (q : Fifo) : Prop where
  bound : q.bound = n + 1
  tail_eq : q.tail = q.pushed.length
  head_eq : q.head = q.popped.length
  ordered : q.Ordered n
  published : ∀ i, q.head ≤ i → i < q.sentinel →
    (q.pushed[i]?).map Prod.fst = some (q.buffer (i % (n + 1)))

/-- The local part, by program counter.  A push owns the index it claimed from
its tail CAS until it advances `sentinel`. -/
def Local (w n t : ℕ) (q : Fifo) : Pc → Prop
  | .pushHead _ tail => tail ≤ q.tail
  | .pushCas _ tail => tail ≤ q.tail ∧ (tail = q.tail → tail + 1 < 2 ^ w → tail + 1 ≤ q.head + n)
  | .pushStore v tail => q.sentinel ≤ tail ∧ q.pushed[tail]? = some (v, t)
  | .pushSentinel v tail =>
    q.sentinel ≤ tail ∧ q.pushed[tail]? = some (v, t) ∧ q.buffer (tail % (n + 1)) = v
  | .popValue head => head ≤ q.head ∧ (head = q.head → head < q.sentinel)
  | .popCas head v => head ≤ q.head
    ∧ (head = q.head → head < q.sentinel ∧ (q.pushed[head]?).map Prod.fst = some v)
  | _ => True

/-- What a thread relies on: the counters only grow, the history only grows, and
the indices it owns stay unpublished with their slots untouched. -/
structure Rely (n u : ℕ) (q q' : Fifo) : Prop where
  head_le : q.head ≤ q'.head
  tail_le : q.tail ≤ q'.tail
  sentinel_le : q.sentinel ≤ q'.sentinel
  pushed_le : q.pushed <+: q'.pushed
  owned : ∀ i v, q.pushed[i]? = some (v, u) → q.sentinel ≤ i →
    q'.sentinel ≤ i ∧ q'.buffer (i % (n + 1)) = q.buffer (i % (n + 1))

theorem Rely.refl (n u : ℕ) (q : Fifo) : Rely n u q q :=
  ⟨le_rfl, le_rfl, le_rfl, List.prefix_rfl, fun _ _ _ h => ⟨h, rfl⟩⟩

theorem getElem?_mono {α : Type*} {l l' : List α} (h : l <+: l') {i : ℕ} {a : α}
    (hi : l[i]? = some a) : l'[i]? = some a := by
  obtain ⟨r, rfl⟩ := h
  rw [List.getElem?_append_left (List.getElem?_eq_some_iff.mp hi).1]
  exact hi

theorem Local.stable {w n u : ℕ} {q q' : Fifo} (hr : Rely n u q q') {pc : Pc}
    (h : Local w n u q pc) : Local w n u q' pc := by
  have h₁ := hr.head_le
  have h₂ := hr.tail_le
  have h₃ := hr.sentinel_le
  cases pc with
  | pushHead v tail => exact le_trans h h₂
  | pushCas v tail =>
    refine ⟨le_trans h.1 h₂, fun heq hw => ?_⟩
    have := h.1
    have := h.2 (by omega) hw
    omega
  | pushStore v tail =>
    exact ⟨(hr.owned tail v h.2 h.1).1, getElem?_mono hr.pushed_le h.2⟩
  | pushSentinel v tail =>
    obtain ⟨hs, hp, hb⟩ := h
    obtain ⟨hs', hb'⟩ := hr.owned tail v hp hs
    exact ⟨hs', getElem?_mono hr.pushed_le hp, hb'.trans hb⟩
  | popValue head =>
    refine ⟨le_trans h.1 h₁, fun heq => ?_⟩
    have := h.1
    have := h.2 (by omega)
    omega
  | popCas head v =>
    refine ⟨le_trans h.1 h₁, fun heq => ?_⟩
    have := h.1
    obtain ⟨hlt, hval⟩ := h.2 (by omega)
    refine ⟨by omega, ?_⟩
    obtain ⟨p, hp, hpv⟩ := Option.map_eq_some_iff.mp hval
    rw [getElem?_mono hr.pushed_le hp, Option.map_some, hpv]
  | _ => trivial

/-! ## One lemma per shared update -/

section Updates

variable {w n t : ℕ} {q : Fifo}

/-- A successful tail CAS claims the next index. -/
theorem Core.claim (h : Core n q) {v : ℕ} (hw : q.tail + 1 < 2 ^ w)
    (hroom : q.tail + 1 ≤ q.head + n) :
    Core n { q with tail := incr w q.tail, pushed := q.pushed ++ [(v, t)] } := by
  obtain ⟨hb, ht, hh, ho, hp⟩ := h
  have hincr : incr w q.tail = q.tail + 1 := incr_of_lt hw
  refine ⟨hb, ?_, hh, ⟨ho.head_le, ?_, ?_, ?_⟩, fun i hi hi' => ?_⟩
  · simp only [hincr, List.length_append, List.length_singleton]
    omega
  · simp only [hincr]
    have := ho.sentinel_le
    omega
  · simp only [hincr]
    omega
  · rw [List.map_append]
    exact ho.prefix_pushed.trans (List.prefix_append _ _)
  · have := ho.sentinel_le
    rw [List.getElem?_append_left (by simp only at hi'; omega)]
    exact hp i hi hi'

/-- The store of a push touches no published slot. -/
theorem Core.store (h : Core n q) {v tail : ℕ} (hs : q.sentinel ≤ tail) (ht : tail < q.tail) :
    Core n { q with buffer := Function.update q.buffer (tail % q.bound) v } := by
  refine ⟨h.bound, h.tail_eq, h.head_eq, ⟨h.ordered.head_le, h.ordered.sentinel_le,
    h.ordered.tail_le, h.ordered.prefix_pushed⟩, fun i hi hi' => ?_⟩
  have := h.ordered.head_le
  have := h.ordered.tail_le
  simp only at hi hi' ⊢
  rw [h.bound, Function.update_of_ne]
  · exact h.published i hi hi'
  · exact mod_ne_mod_of_window (a := q.head) hi (by omega) (by omega) (by omega) (by omega)

/-- Advancing `sentinel` publishes the slot of the push that owns it. -/
theorem Core.publish (h : Core n q) {v : ℕ} (hw : q.sentinel + 1 < 2 ^ w)
    (hp : q.pushed[q.sentinel]? = some (v, t)) (hb : q.buffer (q.sentinel % (n + 1)) = v) :
    Core n { q with sentinel := incr w q.sentinel } := by
  have hincr : incr w q.sentinel = q.sentinel + 1 := incr_of_lt hw
  have hlt : q.sentinel < q.pushed.length := (List.getElem?_eq_some_iff.mp hp).1
  have htail := h.tail_eq
  have hle := h.ordered.head_le
  refine ⟨h.bound, h.tail_eq, h.head_eq, ⟨?_, ?_, h.ordered.tail_le, h.ordered.prefix_pushed⟩,
    fun i hi hi' => ?_⟩
  · simp only [hincr]
    omega
  · simp only [hincr]
    omega
  · simp only [hincr] at hi hi' ⊢
    rcases Nat.lt_succ_iff_lt_or_eq.mp hi' with hlt' | rfl
    · exact h.published i hi hlt'
    · rw [hp, hb]
      rfl

/-- A successful head CAS on a published element returns the next value in order. -/
theorem Core.take (h : Core n q) {v : ℕ} (hw : q.head + 1 < 2 ^ w) (hlt : q.head < q.sentinel)
    (hv : (q.pushed[q.head]?).map Prod.fst = some v) :
    Core n { q with head := incr w q.head, popped := q.popped ++ [v] } := by
  have hincr : incr w q.head = q.head + 1 := incr_of_lt hw
  have ho := h.ordered
  refine ⟨h.bound, h.tail_eq, ?_, ⟨?_, ho.sentinel_le, ?_, ?_⟩, fun i hi hi' => ?_⟩
  · simp only [hincr, List.length_append, List.length_singleton]
    have := h.head_eq
    omega
  · simp only [hincr]
    omega
  · simp only [hincr]
    have := ho.tail_le
    omega
  · obtain ⟨r, hr⟩ := ho.prefix_pushed
    rw [← List.getElem?_map, ← hr, h.head_eq, List.getElem?_append_right le_rfl,
      Nat.sub_self] at hv
    cases r with
    | nil => simp at hv
    | cons x r =>
      obtain rfl : x = v := by simpa using hv
      exact ⟨r, by rw [← hr]; simp⟩
  · simp only [hincr] at hi
    exact h.published i (by omega) hi'

end Updates

/-! ## Rely-guarantee -/

/-- The invariant is needed only while fewer than `2 ^ w` pushes were made. -/
def Inv (w n : ℕ) (q : Fifo) : Prop := q.pushed.length < 2 ^ w → Core n q

def Loc (w n t : ℕ) (q : Fifo) (pc : Pc) : Prop := q.pushed.length < 2 ^ w → Local w n t q pc

def RelyFits (w n u : ℕ) (q q' : Fifo) : Prop :=
  q.pushed <+: q'.pushed ∧ (q'.pushed.length < 2 ^ w → Rely n u q q')

/-- The guarantee, by program counter. -/
theorem step_guarantee {w n t : ℕ} {q q' : Fifo} {pc pc' : Pc} {c : Cmd}
    (hcore : Core n q) (hloc : Local w n t q pc) (hok : HeadPublished t q pc c)
    (hfit : q'.pushed.length < 2 ^ w) (hstep : step w t q pc c = some (q', pc')) :
    Core n q' ∧ Local w n t q' pc' ∧ ∀ u, u ≠ t → Rely n u q q' := by
  have ho := hcore.ordered
  have hlen := hcore.tail_eq
  cases pc with
  | returned r =>
    cases c <;> simp only [step, Option.some.injEq, Prod.mk.injEq, reduceCtorEq] at hstep
    all_goals
      obtain ⟨rfl, rfl⟩ := hstep
      exact ⟨hcore, trivial, fun u _ => Rely.refl n u q⟩
  | pushTail v =>
    cases c <;> simp only [step, Option.some.injEq, Prod.mk.injEq, reduceCtorEq] at hstep
    obtain ⟨rfl, rfl⟩ := hstep
    exact ⟨hcore, le_rfl, fun u _ => Rely.refl n u q⟩
  | pushHead v tail =>
    cases c <;> simp only [step, reduceCtorEq] at hstep
    have hle : tail ≤ q.tail := hloc
    split at hstep <;> cases hstep
    · exact ⟨hcore, trivial, fun u _ => Rely.refl n u q⟩
    · rename_i hfull
      refine ⟨hcore, ⟨hle, fun heq hw => ?_⟩, fun u _ => Rely.refl n u q⟩
      -- a full queue has `tail = head + n`, where the two slots coincide
      by_contra hcon
      apply hfull
      have h₁ := ho.tail_le
      have h₂ : tail + 1 = q.head + (n + 1) := by omega
      rw [incr_of_lt hw, hcore.bound, h₂, Nat.add_mod_right]
  | pushCas v tail =>
    cases c <;> simp only [step, reduceCtorEq] at hstep
    split at hstep <;> cases hstep
    · rename_i htail
      subst htail
      simp only [List.length_append, List.length_singleton] at hfit
      have hw : q.tail + 1 < 2 ^ w := by omega
      have hroom := hloc.2 rfl hw
      refine ⟨hcore.claim hw hroom, ⟨ho.sentinel_le, ?_⟩, fun u _ => ?_⟩
      · simp only [hlen]
        exact List.getElem?_concat_length
      · refine ⟨le_rfl, ?_, le_rfl, List.prefix_append _ _, fun i v' hi hs => ⟨hs, rfl⟩⟩
        simp only [incr_of_lt hw]
        omega
    · exact ⟨hcore, trivial, fun u _ => Rely.refl n u q⟩
  | pushStore v tail =>
    cases c <;> simp only [step, Option.some.injEq, Prod.mk.injEq, reduceCtorEq] at hstep
    obtain ⟨rfl, rfl⟩ := hstep
    obtain ⟨hs, hp⟩ := hloc
    have hlt : tail < q.tail := by
      rw [hlen]
      exact (List.getElem?_eq_some_iff.mp hp).1
    refine ⟨hcore.store hs hlt, ⟨hs, hp, ?_⟩, fun u hu => ?_⟩
    · simp only [hcore.bound, Function.update_self]
    · refine ⟨le_rfl, le_rfl, le_rfl, List.prefix_rfl, fun i v' hi hsi => ⟨hsi, ?_⟩⟩
      have hi' : i < q.tail := by
        rw [hlen]
        exact (List.getElem?_eq_some_iff.mp hi).1
      have hne : i ≠ tail := by
        rintro rfl
        rw [hp] at hi
        exact hu (by simpa using (congrArg (Option.map Prod.snd) hi).symm)
      have := ho.head_le
      have := ho.tail_le
      simp only [hcore.bound]
      rw [Function.update_of_ne]
      exact mod_ne_mod_of_window (a := q.head) (by omega) (by omega) (by omega) (by omega) hne
  | pushSentinel v tail =>
    cases c <;> simp only [step, reduceCtorEq] at hstep
    obtain ⟨hs, hp, hb⟩ := hloc
    split at hstep <;> cases hstep
    · rename_i hsen
      subst hsen
      have hlt := (List.getElem?_eq_some_iff.mp hp).1
      have hw : q.sentinel + 1 < 2 ^ w := by
        simp only at hfit
        omega
      refine ⟨hcore.publish hw hp hb, trivial, fun u hu => ?_⟩
      refine ⟨le_rfl, le_rfl, ?_, List.prefix_rfl, fun i v' hi hsi => ⟨?_, rfl⟩⟩
      · simp only [incr_of_lt hw]
        omega
      · have hne : i ≠ q.sentinel := by
          rintro rfl
          rw [hp] at hi
          exact hu (by simpa using (congrArg (Option.map Prod.snd) hi).symm)
        simp only [incr_of_lt hw]
        omega
    · exact ⟨hcore, ⟨hs, hp, hb⟩, fun u _ => Rely.refl n u q⟩
  | pushUsed =>
    cases c <;> simp only [step, Option.some.injEq, Prod.mk.injEq, reduceCtorEq] at hstep
    obtain ⟨rfl, rfl⟩ := hstep
    exact ⟨⟨hcore.bound, hcore.tail_eq, hcore.head_eq, ⟨ho.1, ho.2, ho.3, ho.4⟩,
      hcore.published⟩, trivial, fun u _ =>
      ⟨le_rfl, le_rfl, le_rfl, List.prefix_rfl, fun i v' hi hs => ⟨hs, rfl⟩⟩⟩
  | popSentinel =>
    cases c <;> simp only [step, Option.some.injEq, Prod.mk.injEq, reduceCtorEq] at hstep
    obtain ⟨rfl, rfl⟩ := hstep
    exact ⟨hcore, trivial, fun u _ => Rely.refl n u q⟩
  | popHead sentinel =>
    cases c <;> simp only [step, reduceCtorEq] at hstep
    split at hstep <;> cases hstep
    · exact ⟨hcore, trivial, fun u _ => Rely.refl n u q⟩
    · rename_i hne
      -- the emptiness test failed, so the condition gives a published element
      exact ⟨hcore, ⟨le_rfl, fun _ => hok.resolve_left hne⟩, fun u _ => Rely.refl n u q⟩
  | popValue head =>
    cases c <;> simp only [step, Option.some.injEq, Prod.mk.injEq, reduceCtorEq] at hstep
    obtain ⟨rfl, rfl⟩ := hstep
    refine ⟨hcore, ⟨hloc.1, fun heq => ⟨hloc.2 heq, ?_⟩⟩, fun u _ => Rely.refl n u q⟩
    rw [hcore.bound]
    exact hcore.published head (by omega) (hloc.2 heq)
  | popCas head v =>
    cases c <;> simp only [step, reduceCtorEq] at hstep
    split at hstep <;> cases hstep
    · rename_i hhead
      subst hhead
      obtain ⟨hlt, hv⟩ := hloc.2 rfl
      have hw : q.head + 1 < 2 ^ w := by
        have := ho.sentinel_le
        simp only at hfit
        omega
      refine ⟨hcore.take hw hlt hv, trivial, fun u _ => ?_⟩
      refine ⟨?_, le_rfl, le_rfl, List.prefix_rfl, fun i v' hi hs => ⟨hs, rfl⟩⟩
      simp only [incr_of_lt hw]
      omega
    · exact ⟨hcore, trivial, fun u _ => Rely.refl n u q⟩
  | popUsed v =>
    cases c <;> simp only [step, Option.some.injEq, Prod.mk.injEq, reduceCtorEq] at hstep
    obtain ⟨rfl, rfl⟩ := hstep
    exact ⟨⟨hcore.bound, hcore.tail_eq, hcore.head_eq, ⟨ho.1, ho.2, ho.3, ho.4⟩,
      hcore.published⟩, trivial, fun u _ =>
      ⟨le_rfl, le_rfl, le_rfl, List.prefix_rfl, fun i v' hi hs => ⟨hs, rfl⟩⟩⟩

/-- No step forgets a push. -/
theorem step_pushed_mono {w t : ℕ} {q q' : Fifo} {pc pc' : Pc} {c : Cmd}
    (hstep : step w t q pc c = some (q', pc')) : q.pushed <+: q'.pushed := by
  cases pc <;> cases c <;> simp only [step, reduceCtorEq] at hstep
  all_goals (try split at hstep) <;> cases hstep <;> simp

theorem relyGuarantee (w n : ℕ) :
    RelyGuarantee (step w) HeadPublished (Inv w n) (Loc w n) (RelyFits w n) where
  guarantee := by
    intro t q pc c q' pc' hinv hloc hok hstep
    have hpre := step_pushed_mono hstep
    have key : q'.pushed.length < 2 ^ w →
        Core n q' ∧ Local w n t q' pc' ∧ ∀ u, u ≠ t → Rely n u q q' := by
      intro hfit
      have hq : q.pushed.length < 2 ^ w := lt_of_le_of_lt hpre.length_le hfit
      exact step_guarantee (hinv hq) (hloc hq) hok hfit hstep
    exact ⟨fun h => (key h).1, fun h => (key h).2.1, fun u hu => ⟨hpre, fun h => (key h).2.2 u hu⟩⟩
  stable := by
    intro u q q' pc _ hr hloc hfit
    exact Local.stable (hr.2 hfit) (hloc (lt_of_le_of_lt hr.1.length_le hfit))

theorem init_holds (w n : ℕ) (hn : n + 1 < 2 ^ w) (junk : ℕ → ℕ) :
    (init w n junk).Holds (Inv w n) (Loc w n) := by
  refine ⟨fun _ => ⟨incr_of_lt hn, rfl, rfl, ⟨le_rfl, le_rfl, Nat.zero_le _, List.nil_prefix⟩,
    fun i hi hi' => ?_⟩, fun _ _ => trivial⟩
  exact absurd hi' (Nat.not_lt_zero i)

/-! ## The main theorems -/

/-- In a state of the invariant, a pop that passes its emptiness test without a
published element at `head` breaks the order with its next three steps. -/
theorem overrun_of_not_headPublished {w n t : ℕ} {c : Conf Fifo Pc} (hcore : Core n c.shared)
    (hfit : c.shared.pushed.length < 2 ^ w)
    (hbad : ¬ onThread HeadPublished c (t, .resume)) :
    ∃ c', run (sys w) c [(t, .resume), (t, .resume), (t, .resume)] = some c'
      ∧ ¬ c'.shared.Ordered n := by
  cases hpc : c.thread t with
  | popHead sentinel =>
    simp only [onThread, HeadPublished, hpc, not_or] at hbad
    obtain ⟨hne, hge⟩ := hbad
    let v := c.shared.buffer (c.shared.head % c.shared.bound)
    refine ⟨⟨{ c.shared with head := incr w c.shared.head, popped := c.shared.popped ++ [v] },
      Function.update c.thread t (.popUsed v)⟩, ?_, fun ho => ?_⟩
    · simp [run, sys, interleave, step, hpc, hne, v]
    · -- either `head` is now past `sentinel`, or more was popped than pushed
      have h₁ := ho.head_le
      have h₂ := ho.prefix_pushed.length_le
      simp only [List.length_append, List.length_singleton, List.length_map] at h₁ h₂
      have h₃ := hcore.head_eq
      rw [incr_of_lt (by omega)] at h₁
      omega
  | _ => exact absurd (by simp only [onThread, HeadPublished, hpc]) hbad

/-- **FIFO order exactly when pops find published elements.**  For every capacity
`n`, any number of threads and any interleaving with fewer than `2 ^ w` pushes:
in every state reached by steps that meet `HeadPublished` the counters are
ordered and the popped values are a prefix of the pushed ones; and from such a
state every thread whose next step does not meet it can break the order on its
own. -/
theorem fifo_order_iff_head_published (w n : ℕ) (hsize : n + 1 < 2 ^ w)
    (junk : ℕ → ℕ) (es : List (ℕ × Cmd)) (c : Conf Fifo Pc)
    (hrun : run (sys w) (init w n junk) es = some c)
    (hpushes : c.shared.pushed.length < 2 ^ w)
    (hok : StepsMeet (sys w) (onThread HeadPublished) (init w n junk) es) :
    c.shared.Ordered n
      ∧ ∀ t, ¬ onThread HeadPublished c (t, .resume) →
          ∃ c', run (sys w) c [(t, .resume), (t, .resume), (t, .resume)] = some c'
            ∧ ¬ c'.shared.Ordered n := by
  have hcore : Core n c.shared :=
    ((relyGuarantee w n).holds_run (init_holds w n hsize junk) hok hrun).1 hpushes
  exact ⟨hcore.ordered, fun t hbad => overrun_of_not_headPublished hcore hpushes hbad⟩

/-- Thread 0 begins a pop on the empty queue and reads `sentinel = 0`; thread 1
pushes 7 and thread 2 pops it; thread 0 then compares `head = 1` with the stale
sentinel. -/
def staleSentinelRun : List (ℕ × Cmd) :=
  [(0, .pop), (0, .resume),
   (1, .push 7), (1, .resume), (1, .resume), (1, .resume), (1, .resume), (1, .resume),
   (1, .resume),
   (2, .pop), (2, .resume), (2, .resume), (2, .resume), (2, .resume), (2, .resume),
   (0, .resume), (0, .resume), (0, .resume)]

/-- The pop of thread 0 returns a value that nobody pushed and leaves
`head = 2 > 1 = sentinel`, on a queue of capacity 1 into which one value went. -/
theorem stale_sentinel_overruns :
    ∃ c, run (sys 64) (init 64 1 fun _ => 0) staleSentinelRun = some c
      ∧ c.shared.pushed.length < 2 ^ 64 ∧ ¬ c.shared.Ordered 1 := by
  refine ⟨_, rfl, ?_, ?_⟩ <;> decide

/-- Threads 1 and 2 push 7 and 8 at the same time, and threads 3 and 4 pop at the same time: each
pair loads the counter together, and the slower one starts again.  Thread 1 pushes 9 before the
second pop is done. -/
def overlappingRun : List (ℕ × Cmd) :=
  [(1, .push 7), (2, .push 8), (1, .resume), (2, .resume), (1, .resume), (2, .resume),
   (1, .resume), (2, .resume), (2, .resume), (2, .resume), (2, .resume), (2, .resume),
   (2, .resume), (1, .resume), (1, .resume), (2, .resume), (1, .resume), (2, .resume),
   (3, .pop), (4, .pop), (3, .resume), (4, .resume), (3, .resume), (4, .resume), (3, .resume),
   (4, .resume), (3, .resume), (4, .resume), (1, .push 9), (4, .resume), (1, .resume),
   (4, .resume), (1, .resume), (3, .resume), (1, .resume), (4, .resume), (1, .resume),
   (4, .resume), (4, .resume), (1, .resume), (1, .resume)]

/-- Two pushes and two pops that overlap meet the condition. -/
theorem fifo_order_overlapping :
    ∃ c, run (sys 64) (init 64 3 fun _ => 0) overlappingRun = some c
      ∧ c.shared.pushed = [(7, 1), (8, 2), (9, 1)] ∧ c.shared.popped = [7, 8]
      ∧ c.thread 3 = .returned (.pop 7) ∧ c.thread 4 = .returned (.pop 8)
      ∧ c.shared.Ordered 3 := by
  obtain ⟨c, hc⟩ : ∃ c, run (sys 64) (init 64 3 fun _ => 0) overlappingRun = some c := ⟨_, rfl⟩
  have hlen : c.shared.pushed.length < 2 ^ 64 := by
    cases hc
    decide
  have hordered := (fifo_order_iff_head_published 64 3 (by decide) (fun _ => 0) overlappingRun c hc
    hlen (by decide)).1
  refine ⟨c, hc, ?_, ?_, ?_, ?_, hordered⟩ <;>
    · cases hc
      rfl

end Cfifo
