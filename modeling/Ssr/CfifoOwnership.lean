/-
# One consumer owns the slots it reads

With a single popping thread the sentinel that a pop has loaded cannot be
overtaken by `head`, so every run is one of those that the FIFO invariant is
about.  From it, in every state and for any number of pushing threads:

* two pushes between their tail CAS and their sentinel CAS use different slots;
* no push is about to write a slot whose last element is published and not yet
  popped;
* the slot that the popper is about to read is published, holds the value that
  was pushed there, and belongs to no push in flight.
-/
import Ssr.CfifoOrder

open Interleaving

namespace Cfifo

/-! ## A single popper -/

/-- Inside `cfifo_pop`. -/
def Pc.popping : Pc → Bool
  | .popSentinel | .popHead _ | .popValue _ | .popCas _ _ | .popUsed _ => true
  | _ => false

/-- Only thread `p` starts pops. -/
def OnePopper (p : ℕ) (e : ℕ × Cmd) : Prop := e.2 = .pop → e.1 = p

/-- The sentinel that the popper has loaded is not behind `head`, and the `head` that it
has loaded is the present one. -/
structure Single (p : ℕ) (c : Conf Fifo Pc) : Prop where
  popper : ∀ u, (c.thread u).popping = true → u = p
  loaded : ∀ u s, c.thread u = .popHead s → c.shared.head ≤ s ∧ s ≤ c.shared.sentinel
  reading : ∀ u h, c.thread u = .popValue h → h = c.shared.head

/-- The invariant of the runs with a single popper, while fewer than `2 ^ w` pushes
were made. -/
structure Alone (w n p : ℕ) (c : Conf Fifo Pc) : Prop where
  core : Core n c.shared
  locals : ∀ u, Local w n u c.shared (c.thread u)
  single : Single p c

section Step

variable {w n p : ℕ} {c c' : Conf Fifo Pc} {e : ℕ × Cmd}

/-- A single popper finds a published element whenever its emptiness test fails. -/
theorem Single.headPublished (h : Single p c) : onThread HeadPublished c e := by
  unfold onThread HeadPublished
  cases hpc : c.thread e.1 with
  | popHead s =>
    obtain ⟨hle, hle'⟩ := h.loaded e.1 s hpc
    by_cases heq : c.shared.head = s
    · exact .inl (by rw [heq])
    · right
      omega
  | _ => trivial

/-- A thread enters `cfifo_pop` by its call only. -/
theorem popping_step {t : ℕ} {q q' : Fifo} {pc pc' : Pc} {cmd : Cmd}
    (hstep : step w t q pc cmd = some (q', pc')) (hpop : pc'.popping = true) :
    pc.popping = true ∨ cmd = .pop := by
  cases pc with
  | returned r =>
    cases cmd <;> simp only [step, reduceCtorEq, Option.some.injEq, Prod.mk.injEq] at hstep
    · rw [← hstep.2] at hpop
      cases hpop
    · exact .inr rfl
  | pushTail v | pushStore v tail | pushUsed =>
    cases cmd <;> cases hstep
    cases hpop
  | pushHead v tail | pushCas v tail | pushSentinel v tail =>
    cases cmd <;> simp only [step, reduceCtorEq] at hstep
    split at hstep <;> cases hstep <;> cases hpop
  | popSentinel | popHead s | popValue h | popCas h v | popUsed v => exact .inl rfl

/-- Only a pop moves `head`. -/
theorem head_step {t : ℕ} {q q' : Fifo} {pc pc' : Pc} {cmd : Cmd}
    (hstep : step w t q pc cmd = some (q', pc')) : q'.head = q.head ∨ pc.popping = true := by
  cases pc with
  | popSentinel | popHead s | popValue h | popCas h v | popUsed v => exact .inr rfl
  | returned r =>
    cases cmd <;> simp only [step, reduceCtorEq, Option.some.injEq, Prod.mk.injEq] at hstep
    all_goals exact .inl (by rw [← hstep.1])
  | pushTail v | pushStore v tail | pushUsed =>
    cases cmd <;> cases hstep
    exact .inl rfl
  | pushHead v tail | pushCas v tail | pushSentinel v tail =>
    cases cmd <;> simp only [step, reduceCtorEq] at hstep
    split at hstep <;> cases hstep <;> exact .inl rfl

/-- The sentinel that is loaded is the present one. -/
theorem popHead_step {t s : ℕ} {q q' : Fifo} {pc : Pc} {cmd : Cmd}
    (hstep : step w t q pc cmd = some (q', .popHead s)) :
    q' = q ∧ s = q.sentinel := by
  cases pc with
  | popSentinel =>
    cases cmd <;> cases hstep
    exact ⟨rfl, rfl⟩
  | returned r => cases cmd <;> cases hstep
  | pushTail v | pushStore v tail | pushUsed | popValue h | popUsed v => cases cmd <;> cases hstep
  | pushHead v tail | pushCas v tail | pushSentinel v tail | popHead s' | popCas h v =>
    cases cmd <;> simp only [step, reduceCtorEq] at hstep
    split at hstep <;> cases hstep

/-- The `head` that is loaded is the present one. -/
theorem popValue_step {t k : ℕ} {q q' : Fifo} {pc : Pc} {cmd : Cmd}
    (hstep : step w t q pc cmd = some (q', .popValue k)) :
    q' = q ∧ k = q.head := by
  cases pc with
  | popHead s =>
    cases cmd <;> simp only [step, reduceCtorEq] at hstep
    split at hstep <;> cases hstep
    exact ⟨rfl, rfl⟩
  | returned r => cases cmd <;> cases hstep
  | pushTail v | pushStore v tail | pushUsed | popSentinel | popValue h | popUsed v =>
    cases cmd <;> cases hstep
  | pushHead v tail | pushCas v tail | pushSentinel v tail | popCas h v =>
    cases cmd <;> simp only [step, reduceCtorEq] at hstep
    split at hstep <;> cases hstep

theorem Alone.step (h : Alone w n p c) (he : OnePopper p e)
    (hfit : c'.shared.pushed.length < 2 ^ w) (hstep : sys w c e = some c') : Alone w n p c' := by
  obtain ⟨k', hprog, hthr⟩ := interleave_eq_some.mp hstep
  obtain ⟨hcore, hloc, hrely⟩ :=
    step_guarantee h.core (h.locals e.1) h.single.headPublished hfit hprog
  -- while another thread takes a step, the popper stands still and so does `head`
  have hstill : ∀ u, u ≠ e.1 → (c.thread u).popping = true →
      c'.shared.head = c.shared.head := by
    intro u hue hpop
    refine (head_step hprog).resolve_right fun hpop' => hue ?_
    rw [h.single.popper u hpop, h.single.popper _ hpop']
  refine ⟨hcore, fun u => ?_, fun u hu => ?_, fun u s hu => ?_, fun u k hu => ?_⟩
  · rw [hthr]
    by_cases hue : u = e.1
    · subst hue
      rw [Function.update_self]
      exact hloc
    · rw [Function.update_of_ne hue]
      exact (h.locals u).stable (hrely u hue)
  · rw [hthr] at hu
    by_cases hue : u = e.1
    · subst hue
      rw [Function.update_self] at hu
      rcases popping_step hprog hu with hpop | hcmd
      · exact h.single.popper _ hpop
      · exact he hcmd
    · rw [Function.update_of_ne hue] at hu
      exact h.single.popper u hu
  · rw [hthr] at hu
    by_cases hue : u = e.1
    · subst hue
      rw [Function.update_self] at hu
      subst hu
      obtain ⟨heq, rfl⟩ := popHead_step hprog
      rw [heq]
      exact ⟨h.core.ordered.head_le, le_rfl⟩
    · rw [Function.update_of_ne hue] at hu
      obtain ⟨hle, hle'⟩ := h.single.loaded u s hu
      have hhead := hstill u hue (by rw [hu]; rfl)
      exact ⟨hhead.le.trans hle, hle'.trans (hrely u hue).sentinel_le⟩
  · rw [hthr] at hu
    by_cases hue : u = e.1
    · subst hue
      rw [Function.update_self] at hu
      subst hu
      obtain ⟨heq, rfl⟩ := popValue_step hprog
      rw [heq]
    · rw [Function.update_of_ne hue] at hu
      rw [hstill u hue (by rw [hu]; rfl)]
      exact h.single.reading u k hu

theorem init_alone (w p : ℕ) (hn : n + 1 < 2 ^ w) (junk : ℕ → ℕ) :
    Alone w n p (init w n junk) := by
  obtain ⟨hinv, hloc⟩ := init_holds w n hn junk
  have hpos : (init w n junk).shared.pushed.length < 2 ^ w := Nat.two_pow_pos w
  refine ⟨hinv hpos, fun u => hloc u hpos, fun u hu => ?_, fun u s hu => ?_, fun u k hu => ?_⟩
  · cases hu
  · cases hu
  · cases hu

/-- The invariant holds in every state reached. -/
theorem alone_run {es : List (ℕ × Cmd)} (h : Alone w n p c) (hes : ∀ e ∈ es, OnePopper p e)
    (hrun : run (sys w) c es = some c') (hfit : c'.shared.pushed.length < 2 ^ w) :
    Alone w n p c' := by
  have hmeets : StepsMeet (sys w) (fun _ e => OnePopper p e) c es := stepsMeet_of_forall_mem hes c
  have hinv : c'.shared.pushed.length < 2 ^ w → Alone w n p c' := by
    have hsteps : ∀ (s : Conf Fifo Pc) e s',
        (s.shared.pushed.length < 2 ^ w → Alone w n p s) → OnePopper p e → sys w s e = some s' →
          s'.shared.pushed.length < 2 ^ w → Alone w n p s' := ?_
    · exact run_invariant hsteps (fun _ => h) hmeets hrun
    intro s e s' hs hok hstep hfit
    have hpre : s.shared.pushed <+: s'.shared.pushed := by
      obtain ⟨k', hprog, -⟩ := interleave_eq_some.mp hstep
      exact step_pushed_mono hprog
    exact (hs (lt_of_le_of_lt hpre.length_le hfit)).step hok hfit hstep
  exact hinv hfit

end Step

/-! ## Ownership -/

/-- Between its tail CAS and its sentinel CAS a push owns index `i`. -/
def Pc.Owns (pc : Pc) (i : ℕ) : Prop :=
  (∃ v, pc = .pushStore v i) ∨ ∃ v, pc = .pushSentinel v i

/-- No two uses of a slot overlap. -/
structure Exclusive (n : ℕ) (c : Conf Fifo Pc) : Prop where
  one_push : ∀ u u' i j, u ≠ u' → (c.thread u).Owns i → (c.thread u').Owns j →
    i % (n + 1) ≠ j % (n + 1)
  no_overwrite : ∀ u v i, c.thread u = .pushStore v i →
    ∀ j, c.shared.head ≤ j → j < c.shared.sentinel → i % (n + 1) ≠ j % (n + 1)
  read_published : ∀ u h, c.thread u = .popValue h →
    h = c.shared.head ∧ h < c.shared.sentinel
      ∧ (c.shared.pushed[h]?).map Prod.fst = some (c.shared.buffer (h % c.shared.bound))
  read_alone : ∀ u h, c.thread u = .popValue h →
    ∀ u' i, (c.thread u').Owns i → i % (n + 1) ≠ h % (n + 1)

section Ownership

variable {w n t p : ℕ} {q : Fifo} {c : Conf Fifo Pc}

theorem Local.owns {pc : Pc} {i : ℕ} (h : Local w n t q pc) (ho : pc.Owns i) :
    q.sentinel ≤ i ∧ ∃ v, q.pushed[i]? = some (v, t) := by
  obtain ⟨v, rfl⟩ | ⟨v, rfl⟩ := ho
  · exact ⟨h.1, v, h.2⟩
  · exact ⟨h.1, v, h.2.1⟩

theorem Alone.exclusive (h : Alone w n p c) : Exclusive n c := by
  have hcore := h.core
  have ho := hcore.ordered
  have hlen := hcore.tail_eq
  have hhead := ho.head_le
  have htail := ho.tail_le
  -- the indices owned lie in the window of `n + 1` indices from `head` on
  have howned : ∀ u i, (c.thread u).Owns i →
      c.shared.sentinel ≤ i ∧ i < c.shared.head + (n + 1) ∧ ∃ v, c.shared.pushed[i]? = some (v, u) := by
    intro u i hi
    obtain ⟨hs, v, hv⟩ := (h.locals u).owns hi
    have hlt := (List.getElem?_eq_some_iff.mp hv).1
    exact ⟨hs, by omega, v, hv⟩
  have hread : ∀ u k, c.thread u = .popValue k → k = c.shared.head ∧ k < c.shared.sentinel := by
    intro u k hk
    have hloc := h.locals u
    rw [hk] at hloc
    have heq := h.single.reading u k hk
    exact ⟨heq, hloc.2 heq⟩
  refine ⟨fun u u' i j hne hi hj => ?_, fun u v i hi j hj hj' => ?_, fun u k hk => ?_,
    fun u k hk u' i hi => ?_⟩
  · obtain ⟨hs, hlt, v, hv⟩ := howned u i hi
    obtain ⟨hs', hlt', v', hv'⟩ := howned u' j hj
    refine mod_ne_mod_of_window (a := c.shared.head) (by omega) hlt (by omega) hlt' ?_
    rintro rfl
    rw [hv] at hv'
    exact hne (by simpa using congrArg (Option.map Prod.snd) hv')
  · obtain ⟨hs, hlt, -⟩ := howned u i (.inl ⟨v, hi⟩)
    exact mod_ne_mod_of_window (a := c.shared.head) (by omega) hlt hj (by omega) (by omega)
  · obtain ⟨heq, hlt⟩ := hread u k hk
    refine ⟨heq, hlt, ?_⟩
    rw [hcore.bound]
    exact hcore.published k heq.ge hlt
  · obtain ⟨heq, hlt'⟩ := hread u k hk
    obtain ⟨hs, hlt, -⟩ := howned u' i hi
    exact mod_ne_mod_of_window (a := c.shared.head) (by omega) hlt (by omega) (by omega) (by omega)

end Ownership

/-- **Slot ownership with a single consumer.**  For every capacity `n`, one popping
thread, any number of pushing threads and any interleaving with fewer than `2 ^ w`
pushes: in every state each slot is in use by at most one push in flight, no push is
about to write a slot whose element is published and not yet popped, and the popper
reads published slots only, which no push in flight uses. -/
theorem slots_exclusive_single_popper (w n : ℕ) (hsize : n + 1 < 2 ^ w) (junk : ℕ → ℕ) (p : ℕ)
    (es : List (ℕ × Cmd)) (hes : ∀ e ∈ es, OnePopper p e) (c : Conf Fifo Pc)
    (hrun : run (sys w) (init w n junk) es = some c) (hpushes : c.shared.pushed.length < 2 ^ w) :
    Exclusive n c :=
  (alone_run (init_alone w p hsize junk) hes hrun hpushes).exclusive

/-- Two pushes in flight on a queue of capacity 2, whose slots the popper hands back. -/
def handOverRun : List (ℕ × Cmd) :=
  [(1, .push 7), (1, .resume), (1, .resume), (1, .resume), (1, .resume), (1, .resume), (1, .resume),
   (2, .push 8), (2, .resume), (2, .resume), (2, .resume), (2, .resume), (2, .resume),
   (0, .pop), (0, .resume), (0, .resume), (0, .resume), (0, .resume), (0, .resume),
   (0, .pop), (0, .resume), (0, .resume),
   (1, .push 9), (1, .resume), (1, .resume), (1, .resume), (2, .resume),
   (2, .push 10), (2, .resume), (2, .resume)]

instance (p : ℕ) (e : ℕ × Cmd) : Decidable (OnePopper p e) :=
  inferInstanceAs (Decidable (_ → _))

theorem slots_exclusive_hand_over :
    ∃ c, run (sys 64) (init 64 2 fun _ => 0) handOverRun = some c
      ∧ c.thread 0 = .popValue 1 ∧ c.thread 1 = .pushStore 9 2 ∧ Exclusive 2 c := by
  obtain ⟨c, hc⟩ : ∃ c, run (sys 64) (init 64 2 fun _ => 0) handOverRun = some c := ⟨_, rfl⟩
  have hlen : c.shared.pushed.length < 2 ^ 64 := by
    cases hc
    decide
  refine ⟨c, hc, ?_, ?_, slots_exclusive_single_popper 64 2 (by decide) (fun _ => 0) 0 handOverRun
    (by decide) c hc hlen⟩
  · cases hc
    rfl
  · cases hc
    rfl

end Cfifo
