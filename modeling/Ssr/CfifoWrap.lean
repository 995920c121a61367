/-
# `cfifo` by a single thread, across the wrap of its counters

One thread calls `cfifo_push` and `cfifo_pop`, as often as it likes, so that `head` and `tail`
wrap around.  The slot of an element and the tests for full and empty take the counters
modulo the size `n + 1` of the buffer; where that does not divide `2 ^ w`, the slots jump when
a counter wraps.

* `call` — one call, run to its end;
* `Fifo.stored` — the elements between `head` and `tail`;
* `specCall` — a queue of capacity `n`;
* `Fits` — the condition on one call;
* `behaves_iff` — whole runs: the calls are those of the queue exactly when all of them meet
  the condition, and in every run exactly when the size divides `2 ^ w`.
-/
import Ssr.CfifoOrder
import Ssr.Sequential

open Interleaving Sequential

namespace Cfifo

/-! ## Calls -/

/-- A call of a single thread. -/
inductive Call where
  | push (value : ℕ)
  | pop
  deriving DecidableEq, Repr

/-- Where a call starts. -/
def Call.start : Call → Pc
  | .push v => .pushTail v
  | .pop => .popSentinel

/-- The input that a running call wants. -/
def Pc.input : Pc → Option Cmd
  | .returned _ => none
  | _ => some .resume

/-- A call, to its end.  A buffer of size 0 is a division by zero; no loop goes round twice. -/
def call (w : ℕ) (q : Fifo) (c : Call) : Option (Ret × Fifo) :=
  if q.bound = 0 then none
  else
    match finish (step w 0) Pc.input 7 q c.start with
    | some (q, .returned r) => some (r, q)
    | _ => none

/-- The number of elements, `tail - head`. -/
def Fifo.count (w : ℕ) (q : Fifo) : ℕ := (q.tail + (2 ^ w - q.head)) % 2 ^ w

/-- The slot of the element `i` places behind `head`. -/
def Fifo.slot (w : ℕ) (q : Fifo) (i : ℕ) : ℕ := (q.head + i) % 2 ^ w % q.bound

/-- The elements that are stored, the oldest first. -/
def Fifo.stored (w : ℕ) (q : Fifo) : List ℕ :=
  (List.range (q.count w)).map fun i => q.buffer (q.slot w i)

/-- What a call returns on a queue of capacity `n`, and the queue that it leaves. -/
def specCall (n : ℕ) : List ℕ → Call → Ret × List ℕ
  | xs, .push v => if xs.length = n then (.push (-1), xs) else (.push 0, xs ++ [v])
  | [], .pop => (.pop 0, [])
  | x :: xs, .pop => (.pop x, xs)

/-- Every call of the run returns, and is a call of the queue. -/
def Behaves (w n : ℕ) : Fifo → List Call → Prop
  | _, [] => True
  | q, c :: cs => ∃ r q', call w q c = some (r, q') ∧ (r, q'.stored w) = specCall n (q.stored w) c
    ∧ Behaves w n q' cs

/-- The condition on one call.  Where the counters go over the end of `size_t` between `head`
and the new tail, the slots jump by `2 ^ w % size`: the tests take this number of elements for
none, and an element of as many places before is overwritten. -/
def Fits (w : ℕ) (q : Fifo) : Call → Prop
  | .push v => q.bound ≠ 0 ∧ (2 ^ w % q.bound ≠ 0 →
      (2 ^ w ≤ q.head + q.count w + 1 →
        q.count w + 1 ≠ 2 ^ w % q.bound ∧ q.count w + 1 ≠ q.bound)
      ∧ (2 ^ w ≤ q.head + q.count w → 2 ^ w % q.bound ≤ q.count w →
        q.head + (q.count w - 2 ^ w % q.bound) < 2 ^ w →
        q.buffer (q.slot w (q.count w - 2 ^ w % q.bound)) = v))
  | .pop => q.bound ≠ 0 ∧ (2 ^ w ≤ q.head + q.count w → q.count w ≠ 2 ^ w % q.bound)

/-- The next state of a run. -/
def callStep (w : ℕ) (q : Fifo) (c : Call) : Option Fifo := (call w q c).map (·.2)

/-! ## Slots -/

section Slots

variable {h i k m s x : ℕ}

/-- The slots of two counters that are `x` apart. -/
theorem slot_eq_iff (hs : 0 < s) (hsm : s ≤ m) (hh : h < m) (hx : x ≤ s) :
    (h + x) % m % s = h % s ↔ if h + x < m then x = 0 ∨ x = s else x % s = m % s := by
  split_ifs with hlt
  · rw [Nat.mod_eq_of_lt hlt]
    constructor
    · intro heq
      have hdvd : s ∣ h + x - h := (Nat.modEq_iff_dvd' (Nat.le_add_right h x)).mp heq.symm
      rw [Nat.add_sub_cancel_left] at hdvd
      rcases Nat.eq_zero_or_pos x with hx0 | hpos
      · exact Or.inl hx0
      · exact Or.inr (le_antisymm hx (Nat.le_of_dvd hpos hdvd))
    · rintro (rfl | rfl)
      · rfl
      · exact Nat.add_mod_right h x
  · obtain ⟨y, hy⟩ : ∃ y, h + x = y + m := ⟨h + x - m, by omega⟩
    have hmod : (h + x) % m = y := by
      rw [hy, Nat.add_mod_right]
      exact Nat.mod_eq_of_lt (by omega)
    rw [hmod]
    constructor
    · intro heq
      have hadd : y + m ≡ h + m [MOD s] := Nat.ModEq.add_right m heq
      rw [← hy] at hadd
      exact Nat.ModEq.add_left_cancel' h hadd
    · intro heq
      have hadd : h + x ≡ h + m [MOD s] := Nat.ModEq.add_left h heq
      rw [hy] at hadd
      exact Nat.ModEq.add_right_cancel' m hadd

/-- The test for full, with `k` elements. -/
theorem full_iff (hsm : s ≤ m) (hh : h < m) (hk : k < s) : (h + (k + 1)) % m % s = h % s
    ↔ if h + (k + 1) < m then k + 1 = s else (k + 1) % s = m % s := by
  rw [slot_eq_iff (by omega) hsm hh hk]
  by_cases hlt : h + (k + 1) < m
  · rw [if_pos hlt, if_pos hlt, or_iff_right (Nat.succ_ne_zero k)]
  · rw [if_neg hlt, if_neg hlt]

/-- The test for empty, with `k` elements. -/
theorem empty_iff (hsm : s ≤ m) (hh : h < m) (hk : k < s) : (h + k) % m % s = h % s
    ↔ if h + k < m then k = 0 else k = m % s := by
  rw [slot_eq_iff (by omega) hsm hh hk.le]
  split_ifs
  · omega
  · rw [Nat.mod_eq_of_lt hk]

/-- The slots of the elements `i` and `k`. -/
theorem slots_eq_iff (hsm : s ≤ m) (hh : h < m) (hik : i < k) (hk : k < s) :
    (h + k) % m % s = (h + i) % m % s
      ↔ m ≤ h + k ∧ m % s ≤ k ∧ i = k - m % s ∧ h + i < m ∧ m % s ≠ 0 := by
  have hm : 0 < m := by omega
  by_cases hwrap : h + i < m
  · have hiff := slot_eq_iff (x := k - i) (by omega) hsm hwrap (by omega)
    rw [show h + i + (k - i) = h + k by omega, Nat.mod_eq_of_lt (show k - i < s by omega)] at hiff
    rw [Nat.mod_eq_of_lt hwrap, hiff]
    have hr := Nat.mod_lt m (show 0 < s by omega)
    split_ifs <;> omega
  · -- both counters have wrapped
    obtain ⟨y, hy⟩ : ∃ y, h + i = y + m := ⟨h + i - m, by omega⟩
    have hym : y + (k - i) < m := by omega
    have hiff := slot_eq_iff (x := k - i) (by omega) hsm (show y < m by omega) (by omega)
    rw [if_pos hym, Nat.mod_eq_of_lt hym] at hiff
    rw [hy, Nat.add_mod_right, Nat.mod_eq_of_lt (show y < m by omega),
      show h + k = y + (k - i) + m by omega, Nat.add_mod_right, Nat.mod_eq_of_lt hym, hiff]
    omega

end Slots

/-! ## One call -/

/-- The state between two calls, with `k` elements stored. -/
structure Idle (w n k : ℕ) (q : Fifo) : Prop where
  bound : q.bound = n + 1
  fits : n + 1 < 2 ^ w
  head_lt : q.head < 2 ^ w
  count_le : k ≤ n
  tail_eq : q.tail = (q.head + k) % 2 ^ w
  sentinel_eq : q.sentinel = q.tail

section OneCall

variable {w n k v : ℕ} {q : Fifo}

/-- `cfifo_push`, alone. -/
theorem call_push (hb : q.bound ≠ 0) (hs : q.sentinel = q.tail) :
    call w q (.push v) =
      if incr w q.tail % q.bound = q.head % q.bound then some (.push (-1), q)
      else some (.push 0, { q with
        tail := incr w q.tail
        pushed := q.pushed ++ [(v, 0)]
        buffer := Function.update q.buffer (q.tail % q.bound) v
        sentinel := incr w q.tail
        used := incr w q.used }) := by
  rw [call, if_neg hb]
  by_cases hfull : incr w q.tail % q.bound = q.head % q.bound
  · simp [finish, Call.start, Pc.input, step, hfull]
  · simp [finish, Call.start, Pc.input, step, hfull, hs]

/-- `cfifo_pop`, alone. -/
theorem call_pop (hb : q.bound ≠ 0) (hs : q.sentinel = q.tail) :
    call w q .pop =
      if q.head % q.bound = q.tail % q.bound then some (.pop 0, q)
      else some (.pop (q.buffer (q.head % q.bound)), { q with
        head := incr w q.head
        popped := q.popped ++ [q.buffer (q.head % q.bound)]
        used := decr w q.used }) := by
  rw [call, if_neg hb]
  by_cases hempty : q.head % q.bound = q.tail % q.bound
  · simp [finish, Call.start, Pc.input, step, hempty, hs]
  · simp [finish, Call.start, Pc.input, step, hempty, hs]

namespace Idle

theorem bound_ne (h : Idle w n k q) : q.bound ≠ 0 := by
  rw [h.bound]
  exact Nat.succ_ne_zero n

theorem count_eq (h : Idle w n k q) : q.count w = k := by
  have hfits := h.fits
  have hhead := h.head_lt
  have hle := h.count_le
  rw [Fifo.count, h.tail_eq, Nat.mod_add_mod,
    show q.head + k + (2 ^ w - q.head) = k + 2 ^ w by omega, Nat.add_mod_right]
  exact Nat.mod_eq_of_lt (by omega)

theorem length_stored (h : Idle w n k q) : (q.stored w).length = k := by
  simp [Fifo.stored, h.count_eq]

theorem incr_tail (h : Idle w n k q) : incr w q.tail = (q.head + (k + 1)) % 2 ^ w := by
  rw [incr, h.tail_eq, Nat.mod_add_mod, Nat.add_assoc]

/-- The test of `cfifo_push`. -/
theorem full_iff (h : Idle w n k q) : incr w q.tail % q.bound = q.head % q.bound
    ↔ if q.head + (k + 1) < 2 ^ w then k = n else (k + 1) % (n + 1) = 2 ^ w % (n + 1) := by
  have hle := h.count_le
  rw [h.incr_tail, h.bound, Cfifo.full_iff h.fits.le h.head_lt (Nat.lt_succ_of_le hle),
    Nat.add_right_cancel_iff]

/-- The test of `cfifo_pop`. -/
theorem empty_iff (h : Idle w n k q) : q.head % q.bound = q.tail % q.bound
    ↔ if q.head + k < 2 ^ w then k = 0 else k = 2 ^ w % (n + 1) := by
  rw [eq_comm, h.tail_eq, h.bound,
    Cfifo.empty_iff h.fits.le h.head_lt (Nat.lt_succ_of_le h.count_le)]

/-- An element goes behind the others, unless its slot holds another value that is stored. -/
theorem stored_push {q' : Fifo} (h : Idle w n k q) (h' : Idle w n (k + 1) q')
    (hhead : q'.head = q.head)
    (hbuf : q'.buffer = Function.update q.buffer (q.slot w k) v) :
    q'.stored w = q.stored w ++ [v]
      ↔ ∀ i < k, q.slot w k = q.slot w i → q.buffer (q.slot w i) = v := by
  have hslot : ∀ i, q'.slot w i = q.slot w i := fun i => by
    rw [Fifo.slot, Fifo.slot, hhead, h.bound, h'.bound]
  rw [Fifo.stored, Fifo.stored, h.count_eq, h'.count_eq, List.range_succ, List.map_append,
    List.map_singleton, hslot k, hbuf, Function.update_self, List.append_left_inj,
    List.map_inj_left]
  simp only [List.mem_range, hslot]
  refine forall₂_congr fun i hi => ?_
  by_cases heq : q.slot w k = q.slot w i
  · rw [heq, Function.update_self]
    exact ⟨fun hv _ => hv.symm, fun hv => (hv rfl).symm⟩
  · rw [Function.update_of_ne (Ne.symm heq)]
    exact ⟨fun _ habs => absurd habs heq, fun _ => rfl⟩

/-- Without the oldest element. -/
theorem stored_pop {q' : Fifo} (h : Idle w n (k + 1) q) (h' : Idle w n k q')
    (hhead : q'.head = incr w q.head) (hbuf : q'.buffer = q.buffer) :
    q.stored w = q.buffer (q.head % q.bound) :: q'.stored w := by
  have hslot : ∀ i, q'.slot w i = q.slot w (i + 1) := fun i => by
    rw [Fifo.slot, Fifo.slot, hhead, h.bound, h'.bound, incr, Nat.mod_add_mod, Nat.add_assoc,
      Nat.add_comm 1 i]
  have hzero : q.slot w 0 = q.head % q.bound := by
    rw [Fifo.slot, Nat.add_zero, Nat.mod_eq_of_lt h.head_lt]
  rw [Fifo.stored, Fifo.stored, h.count_eq, h'.count_eq, List.range_succ_eq_map, List.map_cons,
    hzero, List.map_map]
  congr 1
  refine List.map_congr_left fun i _ => ?_
  rw [Function.comp_apply, hslot, hbuf]

/-- The condition on a push, with the number of elements. -/
theorem fits_push (h : Idle w n k q) : Fits w q (.push v)
    ↔ (2 ^ w % (n + 1) ≠ 0 → 2 ^ w ≤ q.head + k + 1 → k + 1 ≠ 2 ^ w % (n + 1) ∧ k ≠ n)
      ∧ ∀ i < k, q.slot w k = q.slot w i → q.buffer (q.slot w i) = v := by
  have hle := h.count_le
  have hcollide : (∀ i < k, q.slot w k = q.slot w i → q.buffer (q.slot w i) = v)
      ↔ (2 ^ w % (n + 1) ≠ 0 → 2 ^ w ≤ q.head + k → 2 ^ w % (n + 1) ≤ k →
        q.head + (k - 2 ^ w % (n + 1)) < 2 ^ w →
        q.buffer (q.slot w (k - 2 ^ w % (n + 1))) = v) := by
    have hslots := fun i (hi : i < k) =>
      slots_eq_iff h.fits.le h.head_lt hi (Nat.lt_succ_of_le hle)
    simp only [Fifo.slot, h.bound] at *
    constructor
    · intro hall hr hwrap hrk hlt
      have hi : k - 2 ^ w % (n + 1) < k := by omega
      exact hall _ hi ((hslots _ hi).mpr ⟨hwrap, hrk, rfl, hlt, hr⟩)
    · intro hone i hi heq
      obtain ⟨hwrap, hrk, rfl, hlt, hr⟩ := (hslots i hi).mp heq
      exact hone hr hwrap hrk hlt
  rw [hcollide]
  simp only [Fits, h.count_eq, h.bound, ne_eq, Nat.succ_ne_zero, not_false_eq_true, true_and,
    Nat.add_right_cancel_iff]
  exact imp_and

/-- The condition on a pop, with the number of elements. -/
theorem fits_pop (h : Idle w n k q) :
    Fits w q .pop ↔ (2 ^ w ≤ q.head + k → k ≠ 2 ^ w % (n + 1)) := by
  simp only [Fits, h.count_eq, h.bound, ne_eq, Nat.succ_ne_zero, not_false_eq_true, true_and]

/-- One push. -/
theorem push (h : Idle w n k q) : ∃ r q', call w q (.push v) = some (r, q')
    ∧ ((r, q'.stored w) = specCall n (q.stored w) (.push v) ↔ Fits w q (.push v))
    ∧ (Fits w q (.push v) → q'.head = q.head ∧ Idle w n (if k = n then n else k + 1) q') := by
  have hmod : 2 ^ w % (n + 1) < n + 1 := Nat.mod_lt _ n.succ_pos
  have hle := h.count_le
  rw [call_push h.bound_ne h.sentinel_eq]
  by_cases hfull : incr w q.tail % q.bound = q.head % q.bound
  · -- the test says full
    have htest := h.full_iff.mp hfull
    rw [if_pos hfull]
    have hfits : Fits w q (.push v) ↔ k = n := by
      rw [h.fits_push]
      by_cases hwrap : q.head + (k + 1) < 2 ^ w
      · rw [if_pos hwrap] at htest
        refine ⟨fun _ => htest, fun _ => ⟨fun _ hge => by omega, fun i hi heq => ?_⟩⟩
        rw [Fifo.slot, Fifo.slot, h.bound, slots_eq_iff h.fits.le h.head_lt hi (by omega)] at heq
        omega
      · rw [if_neg hwrap] at htest
        by_cases hk : k = n
        · subst hk
          rw [Nat.mod_self] at htest
          refine ⟨fun _ => rfl, fun _ => ⟨fun hr => absurd htest.symm hr, fun i hi heq => ?_⟩⟩
          rw [Fifo.slot, Fifo.slot, h.bound, slots_eq_iff h.fits.le h.head_lt hi (by omega)]
            at heq
          omega
        · rw [Nat.mod_eq_of_lt (show k + 1 < n + 1 by omega)] at htest
          refine iff_of_false (fun hf => ?_) hk
          exact (hf.1 (by omega) (by omega)).1 htest
    refine ⟨_, _, rfl, ?_, fun hf => ⟨rfl, ?_⟩⟩
    · rw [hfits, specCall, h.length_stored]
      by_cases hk : k = n
      · rw [if_pos hk]
        exact iff_of_true rfl hk
      · rw [if_neg hk]
        exact iff_of_false (by simp) hk
    · have hk := hfits.mp hf
      rw [if_pos hk]
      rwa [hk] at h
  · -- the element is stored
    have htest := mt h.full_iff.mpr hfull
    rw [if_neg hfull]
    refine ⟨_, _, rfl, ?_⟩
    by_cases hk : k = n
    · have hwrap : ¬ q.head + (k + 1) < 2 ^ w := fun hlt => htest ((if_pos hlt).mpr hk)
      rw [if_neg hwrap, hk, Nat.mod_self] at htest
      have hnot : ¬ Fits w q (.push v) := fun hf =>
        (h.fits_push.mp hf).1 (Ne.symm htest) (by omega) |>.2 hk
      refine ⟨iff_of_false ?_ hnot, fun hf => absurd hf hnot⟩
      rw [specCall, h.length_stored, if_pos hk]
      simp
    · have h' : Idle w n (k + 1) { q with
          tail := incr w q.tail
          pushed := q.pushed ++ [(v, 0)]
          buffer := Function.update q.buffer (q.tail % q.bound) v
          sentinel := incr w q.tail
          used := incr w q.used } :=
        ⟨h.bound, h.fits, h.head_lt, by omega, h.incr_tail, rfl⟩
      refine ⟨?_, fun _ => ⟨rfl, by rwa [if_neg hk]⟩⟩
      rw [specCall, h.length_stored, if_neg hk, Prod.mk.injEq, eq_self, true_and,
        h.stored_push h' rfl (by rw [h.tail_eq]; rfl), h.fits_push, iff_and_self]
      intro _ _ hge
      rw [if_neg (by omega), Nat.mod_eq_of_lt (show k + 1 < n + 1 by omega)] at htest
      exact ⟨htest, hk⟩

/-- One pop. -/
theorem pop (h : Idle w n k q) : ∃ r q', call w q .pop = some (r, q')
    ∧ ((r, q'.stored w) = specCall n (q.stored w) .pop ↔ Fits w q .pop)
    ∧ (Fits w q .pop → Idle w n (k - 1) q' ∧ (k ≠ 0 → q'.head = incr w q.head)) := by
  rw [call_pop h.bound_ne h.sentinel_eq]
  by_cases hempty : q.head % q.bound = q.tail % q.bound
  · have htest := h.empty_iff.mp hempty
    rw [if_pos hempty]
    have hfits : Fits w q .pop ↔ k = 0 := by
      rw [h.fits_pop]
      by_cases hwrap : q.head + k < 2 ^ w
      · rw [if_pos hwrap] at htest
        exact iff_of_true (fun hge => by omega) htest
      · rw [if_neg hwrap] at htest
        have hhead := h.head_lt
        exact iff_of_false (fun hf => hf (by omega) htest) (by omega)
    refine ⟨_, _, rfl, ?_, fun hf => ?_⟩
    · rw [hfits, ← h.length_stored]
      cases q.stored w with
      | nil => exact iff_of_true rfl rfl
      | cons x xs =>
        refine iff_of_false (fun heq => ?_) (Nat.succ_ne_zero _)
        exact List.cons_ne_self x xs (Prod.mk.inj heq).2
    · have hk := hfits.mp hf
      refine ⟨?_, fun hne => absurd hk hne⟩
      rwa [hk] at h ⊢
  · have htest := mt h.empty_iff.mpr hempty
    rw [if_neg hempty]
    refine ⟨_, _, rfl, ?_⟩
    obtain ⟨j, rfl⟩ : ∃ j, k = j + 1 := by
      refine ⟨k - 1, ?_⟩
      by_contra hk
      have hhead := h.head_lt
      exact htest ((if_pos (by omega)).mpr (by omega))
    have h' : Idle w n j { q with
        head := incr w q.head
        popped := q.popped ++ [q.buffer (q.head % q.bound)]
        used := decr w q.used } := by
      have hle := h.count_le
      have hpos : 0 < 2 ^ w := Nat.two_pow_pos w
      refine ⟨h.bound, h.fits, Nat.mod_lt _ hpos, by omega, ?_, h.sentinel_eq⟩
      rw [h.tail_eq]
      simp only [incr]
      rw [Nat.mod_add_mod, Nat.add_right_comm, Nat.add_assoc]
    have hfits : Fits w q .pop := by
      rw [h.fits_pop]
      intro hge
      rwa [if_neg (by omega)] at htest
    refine ⟨iff_of_true ?_ hfits, fun _ => ⟨h', fun _ => rfl⟩⟩
    rw [h.stored_pop h' rfl rfl, specCall]

/-- One call. -/
theorem call {c : Call} (h : Idle w n k q) : ∃ r q', Cfifo.call w q c = some (r, q')
    ∧ ((r, q'.stored w) = specCall n (q.stored w) c ↔ Fits w q c)
    ∧ (Fits w q c → ∃ k', Idle w n k' q') := by
  cases c with
  | push v =>
    obtain ⟨r, q', hcall, hspec, hidle⟩ := h.push (v := v)
    exact ⟨r, q', hcall, hspec, fun hf => ⟨_, (hidle hf).2⟩⟩
  | pop =>
    obtain ⟨r, q', hcall, hspec, hidle⟩ := h.pop
    exact ⟨r, q', hcall, hspec, fun hf => ⟨_, (hidle hf).1⟩⟩

/-- Where the size divides `2 ^ w`, every call meets the condition. -/
theorem fits_of_dvd {c : Call} (h : Idle w n k q) (hdvd : n + 1 ∣ 2 ^ w) : Fits w q c := by
  have hr : 2 ^ w % (n + 1) = 0 := Nat.mod_eq_zero_of_dvd hdvd
  cases c with
  | push v =>
    rw [Fits, h.bound]
    exact ⟨n.succ_ne_zero, fun hne => absurd hr hne⟩
  | pop =>
    have hhead := h.head_lt
    rw [h.fits_pop, hr]
    intro hge hk
    omega

end Idle

/-- A fresh buffer. -/
theorem idle_alloc {junk : ℕ → ℕ} (hfits : n + 1 < 2 ^ w) : Idle w n 0 (alloc w n junk) where
  bound := Nat.mod_eq_of_lt hfits
  fits := hfits
  head_lt := Nat.two_pow_pos w
  count_le := n.zero_le
  tail_eq := (Nat.zero_mod _).symm
  sentinel_eq := rfl

end OneCall

/-! ## Runs -/

section Runs

variable {w n k : ℕ} {q : Fifo} {cs : List Call}

/-- The calls of a run are those of the queue exactly when they all meet the condition. -/
theorem Idle.behaves_iff_meet (h : Idle w n k q) :
    Behaves w n q cs ↔ StepsMeet (callStep w) (Fits w) q cs := by
  induction cs generalizing k q with
  | nil => exact Iff.rfl
  | cons c cs ih =>
    obtain ⟨r, q', hcall, hspec, hidle⟩ := h.call (c := c)
    have hstep : callStep w q c = some q' := by rw [callStep, hcall, Option.map_some]
    simp only [Behaves, StepsMeet, hcall, hstep, Option.some.injEq, Prod.mk.injEq, Option.mem_def]
    constructor
    · rintro ⟨_, _, ⟨rfl, rfl⟩, heq, hrest⟩
      have hf := hspec.mp heq
      obtain ⟨k', h'⟩ := hidle hf
      refine ⟨hf, ?_⟩
      rintro _ rfl
      exact (ih h').mp hrest
    · rintro ⟨hf, hrest⟩
      obtain ⟨k', h'⟩ := hidle hf
      exact ⟨r, q', ⟨rfl, rfl⟩, hspec.mpr hf, (ih h').mpr (hrest q' rfl)⟩

/-- Where the size divides `2 ^ w`, every run is a run of the queue. -/
theorem Idle.behaves_of_dvd (h : Idle w n k q) (hdvd : n + 1 ∣ 2 ^ w) : Behaves w n q cs := by
  induction cs generalizing k q with
  | nil => trivial
  | cons c cs ih =>
    obtain ⟨r, q', hcall, hspec, hidle⟩ := h.call (c := c)
    have hf := h.fits_of_dvd (c := c) hdvd
    obtain ⟨k', h'⟩ := hidle hf
    exact ⟨r, q', hcall, hspec.mpr hf, ih h'⟩

/-- A push and a pop, `i` times. -/
def pairs : ℕ → List Call
  | 0 => []
  | i + 1 => .push 0 :: .pop :: pairs i

/-- Both counters go to their last value, and `r` elements are pushed. -/
def wrapRun (w r : ℕ) : List Call := pairs (2 ^ w - 1) ++ List.replicate r (.push 0)

/-- The calls of a run of the queue leave the state that the condition promises. -/
theorem Idle.behaves_cons {c : Call} (h : Idle w n k q) (hb : Behaves w n q (c :: cs)) :
    Fits w q c ∧ ∃ r q', Cfifo.call w q c = some (r, q') ∧ Behaves w n q' cs := by
  rw [h.behaves_iff_meet] at hb
  obtain ⟨r, q', hcall, -, hidle⟩ := h.call (c := c)
  obtain ⟨k', h'⟩ := hidle hb.1
  have hstep : callStep w q c = some q' := by rw [callStep, hcall, Option.map_some]
  exact ⟨hb.1, r, q', hcall, h'.behaves_iff_meet.mpr (hb.2 q' hstep)⟩

/-- On an empty queue a push and a pop move the head by one. -/
theorem Idle.behaves_pair (h : Idle w n 0 q) (hn : n ≠ 0) (hhead : q.head + 1 < 2 ^ w)
    (hb : Behaves w n q (.push 0 :: .pop :: cs)) :
    ∃ q', Idle w n 0 q' ∧ q'.head = q.head + 1 ∧ Behaves w n q' cs := by
  obtain ⟨hf₁, r₁, q₁, hcall₁, hb₁⟩ := h.behaves_cons hb
  obtain ⟨_, _, heq₁, -, hidle₁⟩ := h.push (v := 0)
  cases hcall₁.symm.trans heq₁
  obtain ⟨hhead₁, h₁⟩ := hidle₁ hf₁
  rw [if_neg (Ne.symm hn)] at h₁
  obtain ⟨hf₂, r₂, q₂, hcall₂, hb₂⟩ := h₁.behaves_cons hb₁
  obtain ⟨_, _, heq₂, -, hidle₂⟩ := h₁.pop
  cases hcall₂.symm.trans heq₂
  obtain ⟨h₂, hhead₂⟩ := hidle₂ hf₂
  refine ⟨q₂, h₂, ?_, hb₂⟩
  rw [hhead₂ Nat.one_ne_zero, hhead₁, incr, Nat.mod_eq_of_lt hhead]

/-- The head moves by one for each push and pop. -/
theorem Idle.behaves_pairs {i : ℕ} (h : Idle w n 0 q) (hn : n ≠ 0) (hhead : q.head + i < 2 ^ w)
    (hb : Behaves w n q (pairs i ++ cs)) :
    ∃ q', Idle w n 0 q' ∧ q'.head = q.head + i ∧ Behaves w n q' cs := by
  induction i generalizing q with
  | zero => exact ⟨q, h, rfl, hb⟩
  | succ i ih =>
    obtain ⟨q₁, h₁, hhead₁, hb₁⟩ := h.behaves_pair hn (by omega) hb
    obtain ⟨q', h', hhead', hb'⟩ := ih h₁ (by omega) hb₁
    exact ⟨q', h', by omega, hb'⟩

/-- With the head at its last value, the pushes come to the number of elements that the tests
take for none. -/
theorem Idle.not_behaves_pushes {i : ℕ} (h : Idle w n k q) (hhead : q.head + 1 = 2 ^ w)
    (hi : k + (i + 1) = 2 ^ w % (n + 1)) :
    ¬ Behaves w n q (List.replicate (i + 1) (.push 0)) := by
  have hmod : 2 ^ w % (n + 1) < n + 1 := Nat.mod_lt _ n.succ_pos
  induction i generalizing k q with
  | zero =>
    intro hb
    obtain ⟨hf, -⟩ := h.behaves_cons hb
    exact ((h.fits_push.mp hf).1 (by omega) (by omega)).1 hi
  | succ i ih =>
    intro hb
    obtain ⟨hf, r, q', hcall, hb'⟩ := h.behaves_cons hb
    obtain ⟨_, _, heq, -, hidle⟩ := h.push (v := 0)
    cases hcall.symm.trans heq
    obtain ⟨hhead', h'⟩ := hidle hf
    rw [if_neg (by omega)] at h'
    exact ih h' (by rw [hhead', hhead]) (by omega) hb'

/-- The run over the end of `size_t` is none of the queue. -/
theorem Idle.not_behaves_wrapRun (h : Idle w n 0 q) (hhead : q.head = 0)
    (hr : 2 ^ w % (n + 1) ≠ 0) : ¬ Behaves w n q (wrapRun w (2 ^ w % (n + 1))) := by
  intro hb
  have hfits := h.fits
  have hn : n ≠ 0 := by
    rintro rfl
    exact hr (Nat.mod_one _)
  obtain ⟨q', h', hhead', hb'⟩ := h.behaves_pairs hn (by omega) hb
  obtain ⟨i, hi⟩ := Nat.exists_eq_succ_of_ne_zero hr
  rw [hi] at hb'
  exact h'.not_behaves_pushes (by omega) (by omega) hb'

/-- Single-threaded runs, of any length and from any contents of the buffer: the calls of a run
are those of a queue of capacity `n` exactly when each meets the condition; and in every run
they are exactly when the size of the buffer divides `2 ^ w`. -/
theorem behaves_iff (w n : ℕ) (junk : ℕ → ℕ) (hn : n < 2 ^ w) :
    (∀ cs, Behaves w n (alloc w n junk) cs
      ↔ StepsMeet (callStep w) (Fits w) (alloc w n junk) cs)
    ∧ ((∀ cs, Behaves w n (alloc w n junk) cs) ↔ n + 1 < 2 ^ w ∧ n + 1 ∣ 2 ^ w) := by
  by_cases hfits : n + 1 < 2 ^ w
  · have h : Idle w n 0 (alloc w n junk) := idle_alloc hfits
    refine ⟨fun cs => h.behaves_iff_meet, fun hall => ⟨hfits, ?_⟩, fun ⟨_, hdvd⟩ cs =>
      h.behaves_of_dvd hdvd⟩
    by_contra hdvd
    exact h.not_behaves_wrapRun rfl (mt Nat.dvd_of_mod_eq_zero hdvd) (hall _)
  · -- the size wraps to 0: a division by zero
    have hbound : (alloc w n junk).bound = 0 := by
      show (n + 1) % 2 ^ w = 0
      rw [show n + 1 = 2 ^ w by omega, Nat.mod_self]
    have hcall : ∀ c, call w (alloc w n junk) c = none := fun c => if_pos hbound
    refine ⟨fun cs => ?_, iff_of_false (fun hall => ?_) (fun h => hfits h.1)⟩
    · cases cs with
      | nil => exact Iff.rfl
      | cons c cs =>
        refine iff_of_false ?_ ?_
        · rintro ⟨r, q', hq', -⟩
          rw [hcall] at hq'
          cases hq'
        · rintro ⟨hf, -⟩
          cases c with
          | push v => exact hf.1 hbound
          | pop => exact hf.1 hbound
    · obtain ⟨r, q', hq', -⟩ := hall [.pop]
      rw [hcall] at hq'
      cases hq'

/-- A capacity of 3: the size 4 divides `2 ^ 32`. -/
theorem behaves_iff_three : 3 < 2 ^ 32 ∧ ∀ cs, Behaves 32 3 (alloc 32 3 fun _ => 0) cs :=
  ⟨by decide, (behaves_iff 32 3 (fun _ => 0) (by decide)).2.mpr (by decide)⟩

/-- A capacity of 2: with both counters at `2 ^ 32 - 1`, a push on the empty queue fails. -/
theorem not_behaves_two : ¬ Behaves 32 2 (alloc 32 2 fun _ => 0) (wrapRun 32 1) :=
  (idle_alloc (by decide)).not_behaves_wrapRun rfl (by decide)

end Runs

end Cfifo
