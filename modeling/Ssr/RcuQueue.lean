/-
# The queues of `rcu.c` are exact

What a thread's own queue promises, on top of the invariant of the grace period.

* the pointers freed are a prefix of the pointers queued (`GracePeriod.frees_prefix`):
  the order is kept and nothing is freed twice;
* a queued pointer stays in its slot until it is freed (`QueueExact.slots`), although
  the `uint32_t` positions wrap and the slots are reused modulo the queue size;
* the position that came back to a thread lies between its `tail` and its `head`
  (`QueueExact.between`), so the freeing loop of `rcu_update` ends, after one round
  for each pointer at most (`freeSteps`).
-/
import Ssr.RcuGrace

open Interleaving

namespace Rcu

/-! ## The order of the frees -/

section Order

variable {N : ℕ}

theorem GracePeriod.of_append {l r : List Act} (h : GracePeriod N (l ++ r)) : GracePeriod N l := by
  intro l' r' t p hsplit
  apply h l' (r' ++ r) t p
  rw [hsplit, List.append_assoc, List.cons_append]

/-- Pointers are freed in the order in which they were queued, each at most once. -/
theorem GracePeriod.frees_prefix (t : ℕ) {log : List Act} (h : GracePeriod N log) :
    frees t log <+: puts t log := by
  induction log using List.reverseRecOn with
  | nil => exact List.prefix_rfl
  | append_singleton l x ih =>
    have hl := ih h.of_append
    rw [frees_append, puts_append]
    by_cases hx : ∃ p, x = .free t p
    · obtain ⟨p, rfl⟩ := hx
      -- the pointer freed is the one behind those freed before
      obtain ⟨a, b, rfl, hlen, -⟩ := h l [] t p rfl
      have hputs : puts t (a ++ .put t p :: b) = puts t a ++ p :: puts t b := by
        rw [puts_append, puts_cons, puts_put_self, List.singleton_append]
      have heq : frees t (a ++ .put t p :: b) = puts t a := by
        rw [List.prefix_iff_eq_take, ← hlen, hputs, List.take_left] at hl
        exact hl
      rw [frees_free_self, puts_free, List.append_nil, heq, hputs]
      exact ⟨puts t b, by rw [List.append_assoc, List.singleton_append]⟩
    · have hnil : frees t [x] = [] := by
        cases x with
        | free u p => exact frees_free_of_ne (fun hu => hx ⟨p, by rw [hu]⟩) p
        | put u p => rfl
        | update u => rfl
      rw [hnil, List.append_nil]
      exact hl.trans (List.prefix_append _ _)

end Order

/-! ## The queue of one thread -/

section Exact

variable {N t : ℕ} {s : Ring}

/-- What is exact about the queue of thread `t`. -/
structure QueueExact (s : Ring) (t : ℕ) : Prop where
  order : frees t s.log <+: puts t s.log
  room : (puts t s.log).length < (frees t s.log).length + queueSize
  slots : ∀ k p, (frees t s.log).length ≤ k → (puts t s.log)[k]? = some p →
    s.x t (k % queueSize) = p
  word : s.rcu t t < 2 ^ 32
  between : (s.rcu t t + (2 ^ 32 - s.tail t)) % 2 ^ 32 ≤ (s.head t + (2 ^ 32 - s.tail t)) % 2 ^ 32

/-- At every program counter the queue is in order, up to the pending increment of `tail`. -/
theorem Local.queue {pc : Pc} (h : Local N t s pc) : ∃ lag, lag ≤ 1 ∧ Queue s t lag := by
  cases pc with
  | returned => exact ⟨0, zero_le_one, h⟩
  | freeBump => exact ⟨1, le_rfl, h.2⟩
  | deferTail | deferIndex | deferStore | deferBump | deferPost | updateTest | updateLast
  | updateLoad | updateRecord | updatePost | freeTest | freeIndex | freeLoad | freeCall =>
    exact ⟨0, zero_le_one, h.2.1⟩
  | deferHead | deferCount | deferTest | deferPostLoad | deferRecordLoad | deferRecord | freeTail =>
    exact ⟨0, zero_le_one, h.2⟩

theorem Queue.queueExact {lag : ℕ} (hs : Shared N s) (ht : t < N) (hlag : lag ≤ 1)
    (h : Queue s t lag) : QueueExact s t := by
  refine ⟨hs.grace.frees_prefix t, h.room, fun k p hk hp => ?_, hs.word t t ht ht, ?_⟩
  · have hlt : k < (puts t s.log).length := (List.getElem?_eq_some_iff.mp hp).1
    have hslot := h.slots k hk hlt
    rw [hp] at hslot
    exact (Option.some.inj hslot).symm
  · -- positions are read back from the number of pointers freed
    have hword := hs.word t t ht ht
    have hqueued : s.freed t + (s.rcu t t + (2 ^ 32 - s.freed t % 2 ^ 32)) % 2 ^ 32 ≤ s.put t :=
      hs.queued t t ht ht
    have hhead := h.head_eq
    have htail := h.tail_eq
    have hlt := h.tail_lt
    have hroom : s.put t < s.freed t + 2 ^ 20 := h.room
    omega

end Exact

/-! ## The freeing loop -/

section Freeing

variable {N t : ℕ}

/-- Thread `t` is in the freeing loop of `rcu_update`. -/
def Pc.freeing : Pc → Bool
  | .freeTail | .freeTest _ | .freeIndex | .freeLoad _ | .freeCall _ | .freeBump => true
  | _ => false

/-- How many steps of the freeing loop thread `t` has before it at most. -/
def freeSteps (s : Ring) (t : ℕ) : Pc → ℕ
  | .freeTail => 6 * (s.put t - s.freed t) + 2
  | .freeTest _ => 6 * (s.put t - s.freed t) + 1
  | .freeIndex => 6 * (s.put t - s.freed t)
  | .freeLoad _ => 6 * (s.put t - s.freed t) - 1
  | .freeCall _ => 6 * (s.put t - s.freed t) - 2
  | .freeBump => 6 * (s.put t - s.freed t) + 3
  | _ => 0

/-- How many of the steps are thread `t`'s. -/
def stepsOf (t : ℕ) (es : List (ℕ × Cmd)) : ℕ := (es.filter fun e => e.1 = t).length

@[simp] theorem stepsOf_nil (t : ℕ) : stepsOf t [] = 0 := rfl

theorem stepsOf_cons_self {e : ℕ × Cmd} (h : e.1 = t) (es : List (ℕ × Cmd)) :
    stepsOf t (e :: es) = stepsOf t es + 1 := by
  simp [stepsOf, h]

theorem stepsOf_cons_of_ne {e : ℕ × Cmd} (h : e.1 ≠ t) (es : List (ℕ × Cmd)) :
    stepsOf t (e :: es) = stepsOf t es := by
  simp [stepsOf, h]

theorem put_tick (s : Ring) (t : ℕ) : (s.tick t).put t = s.put t := by
  simp [Ring.put, Ring.tick]

theorem freed_tick (s : Ring) (t : ℕ) : (s.tick t).freed t = s.freed t := by
  simp [Ring.freed, Ring.tick]

/-- The loop never waits for another thread. -/
theorem step_isSome_of_freeing {s : Ring} {pc : Pc} (h : pc.freeing = true) :
    (step N t s pc .resume).isSome = true := by
  cases pc with
  | freeTest tail =>
    simp only [step]
    split <;> rfl
  | freeTail | freeIndex | freeLoad | freeCall | freeBump => rfl
  | _ => exact absurd h Bool.false_ne_true

/-- One step of the loop brings its end nearer. -/
theorem freeing_step {s s' : Ring} {pc pc' : Pc} {c : Cmd} (hs : Shared N s)
    (hl : Local N t s pc) (hf : pc.freeing = true)
    (hstep : step N t s pc c = some (s', pc')) :
    pc' = .returned ∨ pc'.freeing = true ∧ freeSteps s' t pc' + 1 ≤ freeSteps s t pc := by
  cases pc with
  | freeTail =>
    cases c <;> cases hstep
    refine .inr ⟨rfl, ?_⟩
    simp only [freeSteps, put_tick, freed_tick, le_refl]
  | freeTest tail =>
    cases c <;> simp only [step, reduceCtorEq] at hstep
    split at hstep <;> cases hstep
    · refine .inr ⟨rfl, ?_⟩
      simp only [freeSteps, put_tick, freed_tick, le_refl]
    · exact .inl rfl
  | freeIndex =>
    cases c <;> cases hstep
    have hlt := lt_of_lt_of_le hl.2.2 (hs.queued t t hl.1 hl.1)
    refine .inr ⟨rfl, ?_⟩
    simp only [freeSteps, put_tick, freed_tick]
    omega
  | freeLoad i =>
    cases c <;> cases hstep
    have hlt := lt_of_lt_of_le hl.2.2.1 (hs.queued t t hl.1 hl.1)
    refine .inr ⟨rfl, ?_⟩
    simp only [freeSteps, put_tick, freed_tick]
    omega
  | freeCall p =>
    cases c <;> cases hstep
    have hlt := lt_of_lt_of_le hl.2.2.1 (hs.queued t t hl.1 hl.1)
    have hput : Ring.put { s with log := s.log ++ [.free t p] } t = s.put t := by
      simp [Ring.put]
    have hfreed : Ring.freed { s with log := s.log ++ [.free t p] } t = s.freed t + 1 := by
      simp [Ring.freed]
    refine .inr ⟨rfl, ?_⟩
    simp only [freeSteps, hput, hfreed]
    omega
  | freeBump =>
    cases c <;> cases hstep
    have hput := put_tick s t
    have hfreed := freed_tick s t
    refine .inr ⟨rfl, ?_⟩
    change 6 * ((s.tick t).put t - (s.tick t).freed t) + 2 + 1 ≤ 6 * (s.put t - s.freed t) + 3
    rw [hput, hfreed]
  | _ => exact absurd hf Bool.false_ne_true

/-- The other threads do not prolong the loop. -/
theorem freeSteps_eq_of_rely {s s' : Ring} (hr : Rely N t s s') (pc : Pc) :
    freeSteps s' t pc = freeSteps s t pc := by
  have hput : s'.put t = s.put t := congrArg List.length hr.puts_eq
  have hfreed : s'.freed t = s.freed t := congrArg List.length hr.frees_eq
  cases pc <;> simp only [freeSteps, hput, hfreed]

/-- **The loop ends.**  A run with more steps of thread `t` than `freeSteps` allows
contains the return of its `rcu_update`. -/
theorem freeing_returns {c c' : Conf Ring Pc} (hc : c.Holds (Shared N) (Local N))
    (hf : (c.thread t).freeing = true) {es : List (ℕ × Cmd)}
    (hrun : run (sys N) c es = some c')
    (hmany : freeSteps c.shared t (c.thread t) < stepsOf t es) :
    ∃ l r c₁, es = l ++ r ∧ run (sys N) c l = some c₁ ∧ c₁.thread t = .returned := by
  -- on the run, while thread `t` stays in the loop
  induction es generalizing c with
  | nil => exact absurd hmany (Nat.not_lt_zero _)
  | cons e es ih =>
    obtain ⟨c₁, hstep, hrest⟩ := run_cons_eq_some.mp hrun
    have hc₁ := (relyGuarantee N).holds_step hc trivial hstep
    have hgo : (c₁.thread t).freeing = true →
        freeSteps c₁.shared t (c₁.thread t) < stepsOf t es →
        ∃ l r c₂, e :: es = l ++ r ∧ run (sys N) c l = some c₂ ∧ c₂.thread t = .returned := by
      intro hf₁ hlt
      obtain ⟨l, r, c₂, rfl, hl, hret⟩ := ih hc₁ hf₁ hrest hlt
      exact ⟨e :: l, r, c₂, rfl, run_cons_eq_some.mpr ⟨c₁, hstep, hl⟩, hret⟩
    obtain ⟨k', hprog, hthr⟩ := interleave_eq_some.mp hstep
    by_cases he : e.1 = t
    · have hk' : c₁.thread t = k' := by rw [hthr, he, Function.update_self]
      rw [he] at hprog
      rw [stepsOf_cons_self he] at hmany
      obtain hret | ⟨hf₁, hle⟩ := freeing_step hc.1 (hc.2 t) hf hprog
      · refine ⟨[e], es, c₁, rfl, run_cons_eq_some.mpr ⟨c₁, hstep, rfl⟩, ?_⟩
        rw [hk', hret]
      · apply hgo
        · rw [hk', hf₁]
        · rw [hk']
          omega
    · have hk' : c₁.thread t = c.thread t := by
        rw [hthr, Function.update_of_ne (Ne.symm he)]
      have hr : Rely N t c.shared c₁.shared :=
        (step_guarantee hc.1 (hc.2 e.1) hprog).2.2 t (Ne.symm he)
      rw [stepsOf_cons_of_ne he] at hmany
      apply hgo
      · rw [hk', hf]
      · rw [hk', freeSteps_eq_of_rely hr]
        exact hmany

/-- In the loop there are at most six steps for each pointer still queued, and three more. -/
theorem freeSteps_le (s : Ring) (t : ℕ) (pc : Pc) :
    freeSteps s t pc ≤ 6 * ((puts t s.log).length - (frees t s.log).length) + 3 := by
  cases pc <;> simp only [freeSteps, Ring.put, Ring.freed] <;> omega

end Freeing

/-- **The RCU queues are exact.**  For any number `N` of initialised threads, any
interleaving of `rcu_defer_free` and `rcu_update` and a run of any length: the
pointers of each thread are freed in the order they were queued, each at most once;
a slot keeps its pointer until it is freed; the position in `rcu_[t][t]` lies between
`tail` and `head`; and the freeing loop is never stuck and ends. -/
theorem rcu_queue_exact (N : ℕ) (junk : ℕ → ℕ → ℕ) (es : List (ℕ × Cmd)) (c : Conf Ring Pc)
    (hrun : run (sys N) (init junk) es = some c) (t : ℕ) (ht : t < N) :
    QueueExact c.shared t ∧
      ((c.thread t).freeing = true →
        (step N t c.shared (c.thread t) .resume).isSome = true ∧
        ∀ es' c', run (sys N) c es' = some c' →
          6 * ((puts t c.shared.log).length - (frees t c.shared.log).length) + 3 < stepsOf t es' →
          ∃ l r c₁, es' = l ++ r ∧ run (sys N) c l = some c₁ ∧ c₁.thread t = .returned) := by
  have hc := (relyGuarantee N).holds_run (init_holds N junk)
    (stepsMeet_of_forall (fun _ _ => trivial) _ _) hrun
  obtain ⟨lag, hlag, hq⟩ := (hc.2 t).queue
  refine ⟨hq.queueExact hc.1 ht hlag, fun hf => ⟨step_isSome_of_freeing hf, fun es' c' hrun' hmany => ?_⟩⟩
  exact freeing_returns hc hf hrun' (lt_of_le_of_lt (freeSteps_le _ _ _) hmany)

/-- Ten pointers queued and the first of them freed, seen before the end of the loop. -/
theorem rcu_queue_exact_two_threads :
    ∃ c, run (sys 2) (init fun _ _ => 0) postAndFreeRun = some c
      ∧ (c.thread 0).freeing = true ∧ QueueExact c.shared 0
      ∧ ∀ es' c', run (sys 2) c es' = some c' → 57 < stepsOf 0 es' →
          ∃ l r c₁, es' = l ++ r ∧ run (sys 2) c l = some c₁ ∧ c₁.thread 0 = .returned := by
  have h : (run (sys 2) (init fun _ _ => 0) postAndFreeRun).map
      (fun c => ((puts 0 c.shared.log).length, (frees 0 c.shared.log).length,
        (c.thread 0).freeing)) = some (10, 1, true) := by decide
  obtain ⟨c, hc, hf⟩ := Option.map_eq_some_iff.mp h
  simp only [Prod.mk.injEq] at hf
  obtain ⟨hput, hfreed, hfreeing⟩ := hf
  have hexact := rcu_queue_exact 2 _ postAndFreeRun c hc 0 (by decide)
  refine ⟨c, hc, hfreeing, hexact.1, fun es' c' hrun' hmany => ?_⟩
  apply (hexact.2 hfreeing).2 es' c' hrun'
  rw [hput, hfreed]
  exact hmany

end Rcu
