/-
# Nothing is freed twice (`src/runtime/rcu.c`)

A program that never hands the same memory over twice never has it freed twice.

* `freedMem` — the memory that has been freed;
* `step_puts` — one step of `rcu.c`: what a thread queues came with a call of `rcu_defer_free`;
* `Accounted` — what has been queued, or is about to be queued, was handed over;
* `Client.Reclaims.freed_once` — whole runs.
-/
import Ssr.RcuClients
import Ssr.RcuQueue

open Interleaving

namespace Rcu

/-! ## What is freed -/

/-- The memory that has been freed. -/
def freedMem (log : List Act) : List ℕ :=
  log.filterMap fun | .free _ p => some p | _ => none

/-- How often the thread is about to queue the memory. -/
def Pc.pending (pc : Pc) (a : ℕ) : ℕ := if pc.deferred = some a then 1 else 0

section History

variable {N t u : ℕ} {s s' : Ring} {pc pc' : Pc} {c : Cmd} {log : List Act}

/-- What the threads free together. -/
theorem count_freedMem (hlog : ∀ t p, .free t p ∈ log → t < N) (a : ℕ) :
    (freedMem log).count a = ∑ u ∈ Finset.range N, (frees u log).count a := by
  induction log with
  | nil => exact (Finset.sum_const_zero).symm
  | cons x l ih =>
    have hl := ih fun t p hp => hlog t p (List.mem_cons_of_mem x hp)
    cases x with
    | put t p => exact hl
    | update t => exact hl
    | free t p =>
      have hx : ∀ u, (frees u (.free t p :: l)).count a
          = (frees u l).count a + if u = t then [p].count a else 0 := by
        intro u
        rw [← List.singleton_append, frees_append, List.count_append, Nat.add_comm]
        by_cases hu : u = t
        · rw [if_pos hu, hu, frees_free_self]
        · rw [if_neg hu, frees_free_of_ne (Ne.symm hu), List.count_nil]
      have ht : t ∈ Finset.range N := Finset.mem_range.mpr (hlog t p List.mem_cons_self)
      rw [Finset.sum_congr rfl fun u _ => hx u, Finset.sum_add_distrib, Finset.sum_ite_eq',
        if_pos ht, ← hl, Nat.add_comm, ← List.count_append]
      rfl

@[simp] theorem pending_updateFrom (N t i a : ℕ) : (updateFrom N t i).pending a = 0 := by
  rcases updateFrom_cases N t i with ⟨j, heq⟩ | heq <;> rw [heq] <;> rfl

@[simp] theorem puts_tick (s : Ring) (t u : ℕ) : puts u (s.tick t).log = puts u s.log := by
  rw [Ring.tick, puts_append, puts_update, List.append_nil]

/-- What a thread queues came with a call of `rcu_defer_free`. -/
theorem step_puts (hstep : step N t s pc c = some (s', pc')) (a : ℕ) :
    (puts t s'.log).count a + pc'.pending a
      = (puts t s.log).count a + pc.pending a + if c = .deferFree a then 1 else 0 := by
  cases pc <;> cases c <;> simp only [step, reduceCtorEq] at hstep
  all_goals
    repeat' split at hstep
    all_goals cases hstep
  case deferBump.resume p =>
    simp only [puts_append, puts_put_self, List.count_append, List.count_singleton, Pc.pending,
      Pc.deferred, Option.some.injEq, beq_iff_eq, reduceCtorEq, if_false]
  case freeCall.resume p =>
    rw [puts_append, puts_free, List.append_nil]
    rfl
  all_goals first
    | rfl
    | rw [pending_updateFrom, puts_tick]; rfl
    | rw [pending_updateFrom]; rfl
    | simp only [puts_tick, Pc.pending, Pc.deferred, Cmd.deferFree.injEq, Option.some.injEq,
        reduceCtorEq, if_false, Nat.add_zero]

/-- What the other threads have queued. -/
theorem step_puts_of_ne (hstep : step N t s pc c = some (s', pc')) (hu : u ≠ t) :
    puts u s'.log = puts u s.log := by
  rcases step_log hstep with hlog | ⟨p, -, hlog⟩ | ⟨-, x, hx, hlog⟩
  · rw [hlog]
  · rw [hlog, puts_append, puts_put_of_ne hu.symm, List.append_nil]
  · rcases hx with rfl | ⟨p, rfl⟩
    · rw [hlog, puts_append, puts_update, List.append_nil]
    · rw [hlog, puts_append, puts_free, List.append_nil]

end History

/-! ## Handing over -/

variable {σ κ ι : Type*}

/-- What has been queued, or is about to be, was handed over; and threads from `N` on free nothing. -/
structure Accounted (N : ℕ) (handed : σ → List ℕ) (c : Conf (σ × Ring) (κ × Pc)) : Prop where
  inside : ∀ t p, .free t p ∈ c.shared.2.log → t < N
  queued : ∀ a, ∑ u ∈ Finset.range N, ((puts u c.shared.2.log).count a + (c.thread u).2.pending a)
    ≤ (handed c.shared.1).count a

section Runs

variable {P : Client σ κ ι} {handed : σ → List ℕ} {N t : ℕ} {c c' : Conf (σ × Ring) (κ × Pc)}

theorem Local.lt_of_updating {s : Ring} {pc : Pc} (h : Local N t s pc) (hup : pc.updating = true) :
    t < N := by
  cases pc <;> first | exact h.1 | cases hup

/-- What a step of thread `t` frees is freed by `t`. -/
theorem step_inside {s s' : Ring} {pc pc' : Pc} {cmd : Cmd} (hl : Local N t s pc)
    (hin : ∀ u p, .free u p ∈ s.log → u < N) (hstep : step N t s pc cmd = some (s', pc')) :
    ∀ u p, .free u p ∈ s'.log → u < N := by
  intro u p hp
  rcases step_log hstep with hlog | ⟨q, -, hlog⟩ | ⟨hup, x, hx, hlog⟩
  · rw [hlog] at hp
    exact hin u p hp
  · rw [hlog] at hp
    exact hin u p ((List.mem_append.mp hp).resolve_right fun hm => by cases List.mem_singleton.mp hm)
  · rw [hlog] at hp
    rcases List.mem_append.mp hp with hp | hm
    · exact hin u p hp
    · rcases hx with rfl | ⟨q, rfl⟩ <;> cases List.mem_singleton.mp hm
      exact hl.lt_of_updating hup

/-- The account after a step of thread `t` that hands `d` over. -/
theorem Accounted.of_step {k' : κ × Pc} {d : List ℕ} (h : Accounted N handed c)
    (hthread : c'.thread = Function.update c.thread t k')
    (hin : ∀ u p, .free u p ∈ c'.shared.2.log → u < N)
    (hothers : ∀ u, u ≠ t → puts u c'.shared.2.log = puts u c.shared.2.log)
    (hhanded : handed c'.shared.1 = handed c.shared.1 ++ d)
    (hmine : ∀ a, (puts t c'.shared.2.log).count a + k'.2.pending a
      = (puts t c.shared.2.log).count a + (c.thread t).2.pending a + d.count a) :
    Accounted N handed c' where
  inside := hin
  queued := by
    intro a
    have hterm : ∀ u, (puts u c'.shared.2.log).count a + (c'.thread u).2.pending a
        = (puts u c.shared.2.log).count a + (c.thread u).2.pending a
          + if u = t then d.count a else 0 := by
      intro u
      rw [hthread]
      by_cases hu : u = t
      · rw [hu, Function.update_self, if_pos rfl]
        exact hmine a
      · rw [Function.update_of_ne hu, hothers u hu, if_neg hu, Nat.add_zero]
    have hle := h.queued a
    rw [Finset.sum_congr rfl fun u _ => hterm u, Finset.sum_add_distrib, Finset.sum_ite_eq',
      hhanded, List.count_append]
    split_ifs <;> omega

/-- One step of the system. -/
theorem Accounted.step {i : Input ι}
    (hands : ∀ t s k i s' k', P.step t s k i = some (s', k') →
      handed s' = handed s ++ (P.defers k i).toList)
    (hring : Local N t c.shared.2 (c.thread t).2) (h : Accounted N handed c)
    (hstep : P.sys N c (t, i) = some c') : Accounted N handed c' := by
  obtain ⟨k', hprog, hthread⟩ := interleave_eq_some.mp hstep
  rcases Client.guarded_cases hprog with
    ⟨j, rfl, -, hk, hwork, ⟨hd, heq, hk'⟩ | ⟨p, hd, hcall⟩⟩ | ⟨cmd, hcmd, hsame, -, hcall⟩
  · have hhand := hands _ _ _ _ _ _ hwork
    rw [hd] at hhand
    refine h.of_step hthread ?_ (fun u _ => by rw [heq]) hhand fun a => ?_
    · rw [heq]
      exact h.inside
    · rw [heq, hk', hk]
      rfl
  · have hhand := hands _ _ _ _ _ _ hwork
    rw [hd] at hhand
    rw [hk] at hring
    refine h.of_step hthread (step_inside hring h.inside hcall)
      (fun u hu => step_puts_of_ne hcall hu) hhand fun a => ?_
    rw [hk, step_puts hcall a, Option.toList_some, List.count_singleton]
    simp only [Cmd.deferFree.injEq, beq_iff_eq]
  · have hno : ∀ a, cmd ≠ .deferFree a := by
      rintro a rfl
      rcases hcmd with ⟨heq, -⟩ | heq <;> cases heq
    have hhand : handed c'.shared.1 = handed c.shared.1 ++ [] := by
      rw [hsame, List.append_nil]
    refine h.of_step hthread (step_inside hring h.inside hcall)
      (fun u hu => step_puts_of_ne hcall hu) hhand fun a => ?_
    rw [step_puts hcall a, if_neg (hno a), List.count_nil]

/-- **Nothing is freed twice** that was not handed over twice. -/
theorem Accounted.nodup (h : Accounted N handed c) (hg : GracePeriod N c.shared.2.log)
    (hnodup : (handed c.shared.1).Nodup) : (freedMem c.shared.2.log).Nodup := by
  rw [List.nodup_iff_count_le_one]
  intro a
  calc (freedMem c.shared.2.log).count a
      = ∑ u ∈ Finset.range N, (frees u c.shared.2.log).count a := count_freedMem h.inside a
    _ ≤ ∑ u ∈ Finset.range N, ((puts u c.shared.2.log).count a + (c.thread u).2.pending a) :=
        Finset.sum_le_sum fun u _ =>
          ((hg.frees_prefix u).sublist.count_le a).trans (Nat.le_add_right _ _)
    _ ≤ (handed c.shared.1).count a := h.queued a
    _ ≤ 1 := List.nodup_iff_count_le_one.mp hnodup a

variable {ok : ℕ → σ → κ → ι → Prop} {Inv : σ → Prop} {Loc : ℕ → σ → κ → Prop}
  {Rely : ℕ → σ → σ → Prop} {Gone : σ → ℕ → Prop} {Apart : σ → ℕ → κ → Prop}

/-- **Nothing is freed twice** in any run of a program that hands nothing over twice. -/
theorem Client.Reclaims.freed_once (h : P.Reclaims ok Inv Loc Rely Gone Apart)
    (hands : ∀ t s k i s' k', P.step t s k i = some (s', k') →
      handed s' = handed s ++ (P.defers k i).toList)
    (hnodup : ∀ s, Inv s → (handed s).Nodup) {c : Conf σ κ} {junk : ℕ → ℕ → ℕ}
    {es : List (ℕ × Input ι)} (hc : c.Holds Inv Loc) (hidle : ∀ t, P.idle (c.thread t) = true)
    (hok : StepsMeet (P.sys N) (onThread (Input.Meets ok)) (Client.start c junk) es)
    (hrun : run (P.sys N) (Client.start c junk) es = some c') :
    (freedMem c'.shared.2.log).Nodup := by
  have hstart : Accounted N handed (Client.start c junk : Conf (σ × Ring) (κ × Pc)) := by
    refine ⟨fun t p hm => absurd hm List.not_mem_nil, fun a => ?_⟩
    have hzero : ∑ u ∈ Finset.range N, ((puts u ([] : List Act)).count a + Pc.returned.pending a) = 0 :=
      Finset.sum_const_zero
    exact hzero.trans_le (Nat.zero_le _)
  have hholds := h.start_holds N junk hc hidle
  have hstep : ∀ (c : Conf (σ × Ring) (κ × Pc)) (e : ℕ × Input ι) (c' : Conf (σ × Ring) (κ × Pc)),
      c.Holds (Client.Shared N Inv Gone) (P.Local N Loc Gone Apart) ∧ Accounted N handed c →
      onThread (Input.Meets ok) c e → P.sys N c e = some c' →
      c'.Holds (Client.Shared N Inv Gone) (P.Local N Loc Gone Apart) ∧ Accounted N handed c' :=
    fun c e c' hc hmeet hs => ⟨(h.relyGuarantee N).holds_step hc.1 hmeet hs,
      hc.2.step hands (hc.1.2 e.1).ring hs⟩
  obtain ⟨⟨hs, -⟩, hacc⟩ := run_invariant hstep ⟨hholds, hstart⟩ hok hrun
  exact hacc.nodup hs.2.1.grace (hnodup _ hs.1)

end Runs

end Rcu
