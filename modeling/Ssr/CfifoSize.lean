/-
# What `cfifo_size` returns

`used` is adjusted by a fetch-add of its own, after the element has been published or
taken.  At every moment `used` plus the pushes that have not counted their element yet
equals the elements stored plus the pops that have not discounted theirs
(`Balanced`, for any number of threads and across the wrap of every counter).

So `cfifo_size` is `tail - head` at rest, and between calls that are under way it can
be off: a pop that overtakes the fetch-add of the push it takes the element of brings
`used` below zero, and a push that overtakes the fetch-add of the pop that made room
for it brings it above the capacity (`size_out_of_range`).  With one pusher and one
popper these are the only ways (`size_one_pusher_one_popper`).
-/
import Ssr.CfifoOwnership

open Interleaving

namespace Cfifo

/-- `cfifo_size`. -/
def size (q : Fifo) : ℕ := q.used

/-- The elements stored: `tail - head`, as a `size_t`. -/
def stored (w : ℕ) (q : Fifo) : ℕ := (q.tail + (2 ^ w - q.head)) % 2 ^ w

/-- A push that has moved `tail` and has not made its fetch-add. -/
def Pc.uncounted : Pc → ℕ
  | .pushStore _ _ | .pushSentinel _ _ | .pushUsed => 1
  | _ => 0

/-- A pop that has moved `head` and has not made its fetch-add. -/
def Pc.undiscounted : Pc → ℕ
  | .popUsed _ => 1
  | _ => 0

/-- Outside of any call. -/
def Pc.idle : Pc → Bool
  | .returned _ => true
  | _ => false

/-- Inside `cfifo_push`. -/
def Pc.pushing : Pc → Bool
  | .pushTail _ | .pushHead _ _ | .pushCas _ _ | .pushStore _ _ | .pushSentinel _ _
  | .pushUsed => true
  | _ => false

/-- Thread `p` makes the pushes and thread `r` the pops. -/
def OneEach (p r : ℕ) (e : ℕ × Cmd) : Prop :=
  (∀ v, e.2 = .push v → e.1 = p) ∧ OnePopper r e

/-- The state before a fetch-add of `used`: a push finds at most `n` elements, with the
one that the pop under way has taken and not discounted; a pop finds them at most `n`,
and none of them is one that the push under way has not counted, as the subtraction
would wrap on an empty queue. -/
def Timely (w n p r : ℕ) (c : Conf Fifo Pc) (e : ℕ × Cmd) : Prop :=
  match c.thread e.1 with
  | .pushUsed => (stored w c.shared + (c.thread r).undiscounted) % 2 ^ w ≤ n
  | .popUsed _ => (stored w c.shared + (2 ^ w - (c.thread p).uncounted)) % 2 ^ w ≤ n
  | _ => True

instance (p r : ℕ) (e : ℕ × Cmd) : Decidable (OneEach p r e) :=
  decidable_of_iff ((e.2 ≠ .pop ∧ e.2 ≠ .resume → e.1 = p) ∧ (e.2 = .pop → e.1 = r)) <| by
    obtain ⟨t, cmd⟩ := e
    cases cmd <;> simp [OneEach, OnePopper]

instance (w n p r : ℕ) (c : Conf Fifo Pc) (e : ℕ × Cmd) : Decidable (Timely w n p r c e) :=
  match hpc : c.thread e.1 with
  | .pushUsed =>
    decidable_of_iff ((stored w c.shared + (c.thread r).undiscounted) % 2 ^ w ≤ n)
      (by rw [Timely, hpc])
  | .popUsed _ =>
    decidable_of_iff ((stored w c.shared + (2 ^ w - (c.thread p).uncounted)) % 2 ^ w ≤ n)
      (by rw [Timely, hpc])
  | .returned _ | .pushTail _ | .pushHead _ _ | .pushCas _ _ | .pushStore _ _ | .pushSentinel _ _
  | .popSentinel | .popHead _ | .popValue _ | .popCas _ _ => isTrue (by rw [Timely, hpc]; trivial)

/-! ## The balance of the counters -/

/-- What `used` has to do with `tail` and `head`, where the events are those of the
threads in `T`. -/
structure Balanced (w : ℕ) (T : Finset ℕ) (c : Conf Fifo Pc) : Prop where
  head_lt : c.shared.head < 2 ^ w
  used_lt : c.shared.used < 2 ^ w
  balance : c.shared.used + c.shared.head + ∑ u ∈ T, (c.thread u).uncounted
    ≡ c.shared.tail + ∑ u ∈ T, (c.thread u).undiscounted [MOD 2 ^ w]

section Balance

variable {w t : ℕ} {q q' : Fifo} {pc pc' : Pc} {cmd : Cmd}

theorem incr_modEq (w x : ℕ) : incr w x ≡ x + 1 [MOD 2 ^ w] := Nat.mod_modEq _ _

theorem decr_modEq (w x : ℕ) : decr w x + 1 ≡ x [MOD 2 ^ w] := by
  have hpos : 0 < 2 ^ w := Nat.two_pow_pos w
  have h : decr w x + 1 ≡ x + (2 ^ w - 1) + 1 [MOD 2 ^ w] := (Nat.mod_modEq _ _).add_right 1
  have hx : x + (2 ^ w - 1) + 1 = x + 2 ^ w := by omega
  rw [hx] at h
  exact h.trans (Nat.add_mod_right x (2 ^ w))

/-- A step moves the counters and the thread together. -/
theorem step_balance (hstep : step w t q pc cmd = some (q', pc')) :
    q'.used + q'.head + pc'.uncounted + (q.tail + pc.undiscounted)
      ≡ q.used + q.head + pc.uncounted + (q'.tail + pc'.undiscounted) [MOD 2 ^ w] := by
  cases pc with
  | returned r =>
    cases cmd <;> cases hstep <;> exact Nat.ModEq.rfl
  | pushTail v | pushStore v tail | popSentinel | popValue h =>
    cases cmd <;> cases hstep
    exact Nat.ModEq.rfl
  | pushHead v tail | popHead s | pushSentinel v tail =>
    cases cmd <;> simp only [step, reduceCtorEq] at hstep
    split at hstep <;> cases hstep <;> exact Nat.ModEq.rfl
  | pushCas v tail =>
    cases cmd <;> simp only [step, reduceCtorEq] at hstep
    split at hstep <;> cases hstep
    · rename_i htail
      subst htail
      have h := (incr_modEq w q.tail).symm.add_left (q.used + q.head)
      simp only [Pc.uncounted, Pc.undiscounted, Nat.add_zero]
      rwa [add_assoc, Nat.add_comm 1 q.tail]
    · exact Nat.ModEq.rfl
  | pushUsed =>
    cases cmd <;> cases hstep
    have h := (incr_modEq w q.used).add_right (q.head + q.tail)
    simp only [Pc.uncounted, Pc.undiscounted, Nat.add_zero]
    rwa [add_assoc, add_assoc, add_assoc, Nat.add_left_comm q.head 1 q.tail, ← add_assoc q.used 1]
  | popCas h v =>
    cases cmd <;> simp only [step, reduceCtorEq] at hstep
    split at hstep <;> cases hstep
    · rename_i hhead
      subst hhead
      have h := ((incr_modEq w q.head).add_left q.used).add_right q.tail
      simp only [Pc.uncounted, Pc.undiscounted, Nat.add_zero]
      rwa [Nat.add_comm q.tail 1, ← add_assoc]
    · exact Nat.ModEq.rfl
  | popUsed v =>
    cases cmd <;> cases hstep
    have h := (decr_modEq w q.used).add_right (q.head + q.tail)
    simp only [Pc.uncounted, Pc.undiscounted, Nat.add_zero]
    rwa [Nat.add_comm q.tail 1, ← add_assoc, add_assoc q.used,
      Nat.add_right_comm (decr w q.used) q.head 1, add_assoc _ q.head]

theorem step_counters_lt (hhead : q.head < 2 ^ w) (hused : q.used < 2 ^ w)
    (hstep : step w t q pc cmd = some (q', pc')) : q'.head < 2 ^ w ∧ q'.used < 2 ^ w := by
  have hmod : ∀ x, x % 2 ^ w < 2 ^ w := fun x => Nat.mod_lt x (Nat.two_pow_pos w)
  cases pc with
  | returned r =>
    cases cmd <;> cases hstep <;> exact ⟨hhead, hused⟩
  | pushTail v | pushStore v tail | popSentinel | popValue h =>
    cases cmd <;> cases hstep
    exact ⟨hhead, hused⟩
  | pushHead v tail | popHead s | pushSentinel v tail | pushCas v tail =>
    cases cmd <;> simp only [step, reduceCtorEq] at hstep
    split at hstep <;> cases hstep <;> exact ⟨hhead, hused⟩
  | popCas h v =>
    cases cmd <;> simp only [step, reduceCtorEq] at hstep
    split at hstep <;> cases hstep
    · exact ⟨hmod _, hused⟩
    · exact ⟨hhead, hused⟩
  | pushUsed | popUsed v =>
    cases cmd <;> cases hstep
    exact ⟨hhead, hmod _⟩

variable {T : Finset ℕ} {c c' : Conf Fifo Pc} {e : ℕ × Cmd}

theorem Balanced.step (h : Balanced w T c) (he : e.1 ∈ T) (hstep : sys w c e = some c') :
    Balanced w T c' := by
  obtain ⟨k', hprog, hthr⟩ := interleave_eq_some.mp hstep
  obtain ⟨hhead, hused⟩ := step_counters_lt h.head_lt h.used_lt hprog
  refine ⟨hhead, hused, ?_⟩
  have hunc := sum_thread_update Pc.uncounted c.thread he k'
  have hund := sum_thread_update Pc.undiscounted c.thread he k'
  rw [← hthr] at hunc hund
  -- the balance before and the balance of the step, added up
  have hsum := (step_balance hprog).add h.balance
  refine Nat.ModEq.add_right_cancel' (c.shared.used + c.shared.head + c.shared.tail
    + (c.thread e.1).uncounted + (c.thread e.1).undiscounted) ?_
  convert hsum using 1 <;> omega

/-- `used` against the elements stored, in `size_t` arithmetic. -/
theorem Balanced.used_modEq (h : Balanced w T c) :
    c.shared.used + ∑ u ∈ T, (c.thread u).uncounted
      ≡ stored w c.shared + ∑ u ∈ T, (c.thread u).undiscounted [MOD 2 ^ w] := by
  have hhead := h.head_lt
  have hstored : stored w c.shared + c.shared.head ≡ c.shared.tail [MOD 2 ^ w] := by
    have hmod := (Nat.mod_modEq (c.shared.tail + (2 ^ w - c.shared.head)) (2 ^ w)).add_right
      c.shared.head
    have hsum : c.shared.tail + (2 ^ w - c.shared.head) + c.shared.head
        = c.shared.tail + 2 ^ w := by omega
    rw [hsum] at hmod
    exact hmod.trans (Nat.add_mod_right _ _)
  refine Nat.ModEq.add_right_cancel' c.shared.head ?_
  have hbal := h.balance.trans
    (hstored.symm.add_right (∑ u ∈ T, (c.thread u).undiscounted))
  rwa [Nat.add_right_comm, Nat.add_right_comm (stored w c.shared)]

/-- With no element on the way the size is the number of elements stored. -/
theorem Balanced.size_eq_stored (h : Balanced w T c) (hidle : ∀ u, (c.thread u).idle = true) :
    size c.shared = stored w c.shared := by
  have hunc : ∀ u ∈ T, (c.thread u).uncounted = 0 := fun u _ => by
    have hu := hidle u
    cases hpc : c.thread u <;> rw [hpc] at hu <;> first | rfl | cases hu
  have hund : ∀ u ∈ T, (c.thread u).undiscounted = 0 := fun u _ => by
    have hu := hidle u
    cases hpc : c.thread u <;> rw [hpc] at hu <;> first | rfl | cases hu
  have hmod := h.used_modEq
  rw [Finset.sum_eq_zero hunc, Finset.sum_eq_zero hund] at hmod
  exact hmod.eq_of_lt_of_lt h.used_lt (Nat.mod_lt _ (Nat.two_pow_pos w))

theorem init_balanced (w n : ℕ) (junk : ℕ → ℕ) (T : Finset ℕ) :
    Balanced w T (init w n junk) where
  head_lt := Nat.two_pow_pos w
  used_lt := Nat.two_pow_pos w
  balance := by simp [init, alloc, Pc.uncounted, Pc.undiscounted, Nat.ModEq]

end Balance

/-! ## One pusher and one popper -/

/-- The invariant of the runs with one pushing and one popping thread. -/
structure Paired (w p r : ℕ) (c : Conf Fifo Pc) : Prop where
  pusher : ∀ u, (c.thread u).pushing = true → u = p
  popper : ∀ u, (c.thread u).popping = true → u = r
  balanced : Balanced w {p, r} c

section Pair

variable {w n p r : ℕ} {c c' : Conf Fifo Pc} {e : ℕ × Cmd}

/-- A thread enters `cfifo_push` by its call only. -/
theorem pushing_step {t : ℕ} {q q' : Fifo} {pc pc' : Pc} {cmd : Cmd}
    (hstep : step w t q pc cmd = some (q', pc')) (hpush : pc'.pushing = true) :
    pc.pushing = true ∨ ∃ v, cmd = .push v := by
  cases pc with
  | pushTail v | pushHead v tail | pushCas v tail | pushStore v tail | pushSentinel v tail
  | pushUsed => exact .inl rfl
  | returned r =>
    cases cmd <;> cases hstep
    · exact .inr ⟨_, rfl⟩
    · cases hpush
  | popSentinel | popValue h | popUsed v =>
    cases cmd <;> cases hstep
    cases hpush
  | popHead s | popCas h v =>
    cases cmd <;> simp only [step, reduceCtorEq] at hstep
    split at hstep <;> cases hstep <;> cases hpush

/-- A thread that is not idle and takes a step is the pusher or the popper. -/
theorem Paired.step (h : Paired w p r c) (he : OneEach p r e) (hstep : sys w c e = some c') :
    Paired w p r c' := by
  obtain ⟨k', hprog, hthr⟩ := interleave_eq_some.mp hstep
  have hmem : e.1 ∈ ({p, r} : Finset ℕ) := by
    rw [Finset.mem_insert, Finset.mem_singleton]
    cases hpc : c.thread e.1 with
    | returned ret =>
      rw [hpc] at hprog
      cases hcmd : e.2 with
      | push v => exact .inl (he.1 v hcmd)
      | pop => exact .inr (he.2 hcmd)
      | resume =>
        rw [hcmd] at hprog
        cases hprog
    | pushTail v | pushHead v tail | pushCas v tail | pushStore v tail | pushSentinel v tail
    | pushUsed => exact .inl (h.pusher e.1 (by rw [hpc]; rfl))
    | popSentinel | popHead s | popValue k | popCas k v | popUsed v =>
      exact .inr (h.popper e.1 (by rw [hpc]; rfl))
  refine ⟨fun u hu => ?_, fun u hu => ?_, h.balanced.step hmem hstep⟩
  all_goals
    rw [hthr] at hu
    by_cases hue : u = e.1
    · subst hue
      rw [Function.update_self] at hu
      first
        | obtain hpush | ⟨v, hv⟩ := pushing_step hprog hu
          · exact h.pusher e.1 hpush
          · exact he.1 v hv
        | obtain hpop | hcmd := popping_step hprog hu
          · exact h.popper e.1 hpop
          · exact he.2 hcmd
    · rw [Function.update_of_ne hue] at hu
      first
        | exact h.pusher u hu
        | exact h.popper u hu

theorem Pc.uncounted_le (pc : Pc) : pc.uncounted ≤ 1 := by
  cases pc <;> simp [Pc.uncounted]

theorem Pc.pushing_of_uncounted {pc : Pc} (h : pc.uncounted ≠ 0) : pc.pushing = true := by
  cases pc <;> first | rfl | exact absurd rfl h

theorem Pc.popping_of_undiscounted {pc : Pc} (h : pc.undiscounted ≠ 0) : pc.popping = true := by
  cases pc <;> first | rfl | exact absurd rfl h

/-- The balance with one push and one pop at most on the way. -/
theorem Paired.used_modEq (h : Paired w p r c) :
    c.shared.used + (c.thread p).uncounted ≡ stored w c.shared + (c.thread r).undiscounted
      [MOD 2 ^ w] := by
  have hunc : ∑ u ∈ {p, r}, (c.thread u).uncounted = (c.thread p).uncounted :=
    Finset.sum_eq_single_of_mem p (Finset.mem_insert_self p {r}) fun u _ hne => by
      by_contra hu
      exact hne (h.pusher u (Pc.pushing_of_uncounted hu))
  have hund : ∑ u ∈ {p, r}, (c.thread u).undiscounted = (c.thread r).undiscounted :=
    Finset.sum_eq_single_of_mem r (by simp) fun u _ hne => by
      by_contra hu
      exact hne (h.popper u (Pc.popping_of_undiscounted hu))
  have hmod := h.balanced.used_modEq
  rwa [hunc, hund] at hmod

/-- `used` changes at the two fetch-adds only. -/
theorem used_step {t : ℕ} {q q' : Fifo} {pc pc' : Pc} {cmd : Cmd}
    (hstep : step w t q pc cmd = some (q', pc')) :
    q'.used = q.used ∨ pc = .pushUsed ∨ ∃ v, pc = .popUsed v := by
  cases pc with
  | pushUsed => exact .inr (.inl rfl)
  | popUsed v => exact .inr (.inr ⟨v, rfl⟩)
  | returned ret => cases cmd <;> cases hstep <;> exact .inl rfl
  | pushTail v | pushStore v tail | popSentinel | popValue h =>
    cases cmd <;> cases hstep
    exact .inl rfl
  | pushHead v tail | pushCas v tail | pushSentinel v tail | popHead s | popCas h v =>
    cases cmd <;> simp only [step, reduceCtorEq] at hstep
    split at hstep <;> cases hstep <;> exact .inl rfl

/-- A fetch-add that is not timely, and no other step, takes the size out of range. -/
theorem Paired.size_le_iff (h : Paired w p r c) (hle : size c.shared ≤ n) (he : OneEach p r e)
    (hstep : sys w c e = some c') : size c'.shared ≤ n ↔ Timely w n p r c e := by
  have h' := h.step he hstep
  have hmod := h'.used_modEq
  have hlt := h'.balanced.used_lt
  obtain ⟨k', hprog, hthr⟩ := interleave_eq_some.mp hstep
  -- where a fetch-add is due, the thread goes on to it and leaves its call
  have hleave : ∀ q' k, Cfifo.step w e.1 c.shared (c.thread e.1) .resume = some (q', k) →
      (c.thread e.1).idle = false → e.2 = .resume ∧ c'.shared = q' ∧ k' = k := by
    intro q' k hres hbusy
    cases hcmd : e.2 with
    | resume =>
      rw [hcmd, hres] at hprog
      obtain ⟨hs, hk⟩ := Prod.mk.inj (Option.some.inj hprog)
      exact ⟨rfl, hs.symm, hk.symm⟩
    | push v | pop =>
      rw [hcmd] at hprog
      cases hpc : c.thread e.1 with
      | returned ret => rw [hpc] at hbusy; cases hbusy
      | _ => rw [hpc] at hprog; cases hprog
  unfold Timely
  cases hpc : c.thread e.1 with
  | pushUsed =>
    obtain rfl : e.1 = p := h.pusher e.1 (by rw [hpc]; rfl)
    obtain ⟨-, hs, rfl⟩ := hleave _ _ (by rw [hpc]; rfl) (by rw [hpc]; rfl)
    -- what the popper has to discount stays
    have hpop : (c'.thread r).undiscounted = (c.thread r).undiscounted := by
      rw [hthr]
      by_cases hr : r = e.1
      · rw [hr, Function.update_self, hpc]
        rfl
      · rw [Function.update_of_ne hr]
    have hpush : (c'.thread e.1).uncounted = 0 := by
      rw [hthr, Function.update_self]
      rfl
    have hstored : stored w c'.shared = stored w c.shared := by rw [hs]; rfl
    rw [hpop, hpush, hstored] at hmod
    rw [size, ← Nat.mod_eq_of_lt hlt]
    exact (congrArg (· ≤ n) hmod).to_iff
  | popUsed v =>
    obtain rfl : e.1 = r := h.popper e.1 (by rw [hpc]; rfl)
    obtain ⟨-, hs, rfl⟩ := hleave _ _ (by rw [hpc]; rfl) (by rw [hpc]; rfl)
    have hpush : (c'.thread p).uncounted = (c.thread p).uncounted := by
      rw [hthr]
      by_cases hp : p = e.1
      · rw [hp, Function.update_self, hpc]
        rfl
      · rw [Function.update_of_ne hp]
    have hpop : (c'.thread e.1).undiscounted = 0 := by
      rw [hthr, Function.update_self]
      rfl
    have hstored : stored w c'.shared = stored w c.shared := by rw [hs]; rfl
    rw [hpop, hpush, hstored] at hmod
    have hcount : (c.thread p).uncounted ≤ 2 ^ w :=
      (Pc.uncounted_le _).trans (Nat.two_pow_pos w)
    have hsub : c'.shared.used ≡ stored w c.shared + (2 ^ w - (c.thread p).uncounted)
        [MOD 2 ^ w] := by
      refine Nat.ModEq.add_right_cancel' (c.thread p).uncounted (hmod.trans ?_)
      rw [add_assoc, Nat.sub_add_cancel hcount]
      exact (Nat.add_mod_right _ _).symm
    rw [size, ← Nat.mod_eq_of_lt hlt]
    exact (congrArg (· ≤ n) hsub).to_iff
  | _ =>
    obtain hused | hbad | ⟨v, hbad⟩ := used_step hprog
    · exact iff_of_true (hused.le.trans hle) trivial
    · rw [hpc] at hbad
      cases hbad
    · rw [hpc] at hbad
      cases hbad

theorem init_paired (w n p r : ℕ) (junk : ℕ → ℕ) : Paired w p r (init w n junk) where
  pusher _ h := by cases h
  popper _ h := by cases h
  balanced := init_balanced w n junk _

end Pair

/-- **The size with one pusher and one popper.**  For every capacity, every word size and
every interleaving of the two threads, of any length: the size is `tail - head` whenever
no call is in progress, and it is between 0 and `n` in every state of the run exactly if
every fetch-add is timely. -/
theorem size_one_pusher_one_popper (w n : ℕ) (junk : ℕ → ℕ) (p r : ℕ) (es : List (ℕ × Cmd))
    (hes : ∀ e ∈ es, OneEach p r e) (c : Conf Fifo Pc)
    (hrun : run (sys w) (init w n junk) es = some c) :
    ((∀ u, (c.thread u).idle = true) → size c.shared = stored w c.shared)
      ∧ ((∀ pre post c', es = pre ++ post → run (sys w) (init w n junk) pre = some c' →
          size c'.shared ≤ n)
        ↔ StepsMeet (sys w) (Timely w n p r) (init w n junk) es) := by
  have hkeep : ∀ s e s', Paired w p r s → OneEach p r e → sys w s e = some s' → Paired w p r s' :=
    fun s e s' h he hstep => h.step he hstep
  refine ⟨?_, ?_⟩
  · have hmeet : StepsMeet (sys w) (fun _ e => OneEach p r e) (init w n junk) es :=
      stepsMeet_of_forall_mem hes (init w n junk)
    exact (run_invariant hkeep (init_paired w n p r junk) hmeet hrun).balanced.size_eq_stored
  · exact always_iff_stepsMeet
      (fun s e s' h hle he hstep => ⟨h.step he hstep, h.size_le_iff hle he hstep⟩)
      (init_paired w n p r junk) (Nat.zero_le n) hes hrun

/-- An element goes in and out again, one call after the other. -/
def oneAfterAnother : List (ℕ × Cmd) :=
  [(0, .push 7), (0, .resume), (0, .resume), (0, .resume), (0, .resume), (0, .resume),
   (0, .resume),
   (1, .pop), (1, .resume), (1, .resume), (1, .resume), (1, .resume), (1, .resume)]

theorem size_one_after_another :
    ∃ c, run (sys 64) (init 64 1 fun _ => 0) oneAfterAnother = some c
      ∧ ∀ pre post c', oneAfterAnother = pre ++ post →
        run (sys 64) (init 64 1 fun _ => 0) pre = some c' → size c'.shared ≤ 1 := by
  obtain ⟨c, hc⟩ : ∃ c, run (sys 64) (init 64 1 fun _ => 0) oneAfterAnother = some c := ⟨_, rfl⟩
  have htimely : StepsMeet (sys 64) (Timely 64 1 0 1) (init 64 1 fun _ => 0) oneAfterAnother := by
    decide
  exact ⟨c, hc, (size_one_pusher_one_popper 64 1 (fun _ => 0) 0 1 oneAfterAnother (by decide) c
    hc).2.mpr htimely⟩

/-- The pop takes the element that the push has not counted yet. -/
def overtakenPush : List (ℕ × Cmd) :=
  [(0, .push 7), (0, .resume), (0, .resume), (0, .resume), (0, .resume), (0, .resume),
   (1, .pop), (1, .resume), (1, .resume), (1, .resume), (1, .resume), (1, .resume)]

/-- The second push uses the room of an element that the pop has not discounted yet. -/
def overtakenPop : List (ℕ × Cmd) :=
  [(0, .push 7), (0, .resume), (0, .resume), (0, .resume), (0, .resume), (0, .resume),
   (0, .resume),
   (1, .pop), (1, .resume), (1, .resume), (1, .resume), (1, .resume),
   (0, .push 8), (0, .resume), (0, .resume), (0, .resume), (0, .resume), (0, .resume),
   (0, .resume)]

/-- On a queue of capacity 1 `cfifo_size` returns `2 ^ 64 - 1` in one run and 2 in another. -/
theorem size_out_of_range :
    (∀ e ∈ overtakenPush ++ overtakenPop, OneEach 0 1 e)
      ∧ (∃ c, run (sys 64) (init 64 1 fun _ => 0) overtakenPush = some c
        ∧ size c.shared = 2 ^ 64 - 1)
      ∧ ∃ c, run (sys 64) (init 64 1 fun _ => 0) overtakenPop = some c ∧ size c.shared = 2 := by
  refine ⟨by decide, ⟨_, rfl, ?_⟩, _, rfl, ?_⟩ <;> decide

end Cfifo
