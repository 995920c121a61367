/-
# Programs that defer the freeing of memory (`src/runtime/rcu.c`)

The scheme and a program that uses it, as one system: the steps of the operations of the
program and those of `rcu_defer_free` and `rcu_update` are interleaved.

* An operation that takes a node out passes it to `rcu_defer_free`, and goes on when that
  has returned; `rcu_update` is called between two operations.
* `Reclaims` — what the program has to provide: a thread that comes to its operation after a
  node was handed over works apart from that node.
* `Reclaims.apart_of_freed` — then every thread works apart from the memory that is freed.
-/
import Ssr.RcuGrace

open Interleaving

namespace Rcu

/-! ## The system -/

/-- A program whose threads pass memory to `rcu_defer_free`. -/
structure Client (σ κ ι : Type*) where
  step : ℕ → σ → κ → ι → Option (σ × κ)
  /-- The thread is between two operations. -/
  idle : κ → Bool
  /-- The pointer that the step passes to `rcu_defer_free`. -/
  defers : κ → ι → Option ℕ

/-- The input of a step: of the operation, a call of `rcu_update`, or the next step of the
function of `rcu.c` that the thread is in. -/
inductive Input (ι : Type*) where
  | work (i : ι)
  | update
  | resume
  deriving DecidableEq, Repr

variable {σ κ ι : Type*}

/-- One atomic step of thread `t < N`. -/
def Client.guarded (P : Client σ κ ι) (N t : ℕ) (s : σ × Ring) (k : κ × Pc) :
    Input ι → Option ((σ × Ring) × (κ × Pc))
  | .work i =>
    if t < N ∧ k.2 = .returned then
      match P.step t s.1 k.1 i, P.defers k.1 i with
      | some r, none => some ((r.1, s.2), (r.2, .returned))
      | some r, some p =>
        (Rcu.step N t s.2 .returned (.deferFree p)).map fun q => ((r.1, q.1), (r.2, q.2))
      | none, _ => none
    else none
  | .update =>
    if P.idle k.1 then
      (Rcu.step N t s.2 k.2 .update).map fun q => ((s.1, q.1), (k.1, q.2))
    else none
  | .resume => (Rcu.step N t s.2 k.2 .resume).map fun q => ((s.1, q.1), (k.1, q.2))

/-- The interleaved system of `N` initialised threads. -/
abbrev Client.sys (P : Client σ κ ι) (N : ℕ) :
    Conf (σ × Ring) (κ × Pc) → ℕ × Input ι → Option (Conf (σ × Ring) (κ × Pc)) :=
  interleave (P.guarded N)

/-- At first no thread is in a function of `rcu.c`. -/
def Client.start (c : Conf σ κ) (junk : ℕ → ℕ → ℕ) : Conf (σ × Ring) (κ × Pc) where
  shared := (c.shared, (init junk).shared)
  thread := fun t => (c.thread t, .returned)

/-- The condition on the steps of the operations. -/
def Input.Meets (ok : ℕ → σ → κ → ι → Prop) (t : ℕ) (s : σ × Ring) (k : κ × Pc) : Input ι → Prop
  | .work i => ok t s.1 k.1 i
  | .update | .resume => True

instance (ok : ℕ → σ → κ → ι → Prop) [∀ t s k i, Decidable (ok t s k i)] (t : ℕ) (s : σ × Ring)
    (k : κ × Pc) (i : Input ι) : Decidable (i.Meets ok t s k) :=
  match i with
  | .work i => inferInstanceAs (Decidable (ok t s.1 k.1 i))
  | .update | .resume => inferInstanceAs (Decidable True)

/-- The memory has been freed. -/
def Freed (log : List Act) (a : ℕ) : Prop := ∃ t, .free t a ∈ log

/-- Thread `u` has taken a step of `rcu_update` since the memory was queued. -/
def Passed (u : ℕ) (log : List Act) (a : ℕ) : Prop :=
  ∃ l r t, log = l ++ .put t a :: r ∧ .update u ∈ r

/-! ## The history -/

section History

variable {N u a : ℕ} {log l : List Act}

theorem Passed.queued (h : Passed u log a) : ∃ t, .put t a ∈ log := by
  obtain ⟨l, r, t, rfl, -⟩ := h
  exact ⟨t, List.mem_append_right l List.mem_cons_self⟩

theorem Freed.queued (hg : GracePeriod N log) (h : Freed log a) : ∃ t, .put t a ∈ log := by
  obtain ⟨t, ht⟩ := h
  obtain ⟨l, r, rfl⟩ := List.append_of_mem ht
  obtain ⟨x, y, rfl, -⟩ := hg l r t a rfl
  exact ⟨t, by simp⟩

/-- What other threads add to the history passes nothing for `u`. -/
theorem Passed.of_append (h : Passed u (log ++ l) a) (hl : .update u ∉ l) : Passed u log a := by
  obtain ⟨x, y, t, heq, hu⟩ := h
  rcases List.append_eq_append_iff.mp heq with ⟨z, rfl, rfl⟩ | ⟨z, rfl, hz⟩
  · exact absurd (List.mem_append_right z (List.mem_cons_of_mem _ hu)) hl
  · cases z with
    | nil =>
      rw [List.nil_append] at hz
      rw [← hz] at hl
      exact absurd (List.mem_cons_of_mem _ hu) hl
    | cons b z =>
      obtain ⟨rfl, rfl⟩ := List.cons.inj hz
      rcases List.mem_append.mp hu with hu | hu
      · exact ⟨x, z, t, rfl, hu⟩
      · exact absurd hu hl

/-- What another thread frees, `u` has passed before. -/
theorem Freed.passed (hg : GracePeriod N (log ++ l)) (hu : u < N)
    (hl : ∀ p, .free u p ∉ l) (hup : .update u ∉ l) (h : Freed (log ++ l) a) :
    Freed log a ∨ Passed u log a := by
  obtain ⟨t, ht⟩ := h
  rcases List.mem_append.mp ht with ht | ht
  · exact .inl ⟨t, ht⟩
  · have htu : u ≠ t := by
      rintro rfl
      exact hl a ht
    obtain ⟨x, y, rfl⟩ := List.append_of_mem ht
    obtain ⟨p, q, heq, -, hpass⟩ := hg (log ++ x) y t a (List.append_assoc log x _).symm
    have hx : Passed u (log ++ x) a := ⟨p, q, t, heq, hpass u hu htu⟩
    exact .inr (hx.of_append fun hm => hup (List.mem_append_left _ hm))

end History

/-! ## The steps of `rcu.c` -/

/-- The pointer that `rcu_defer_free` is about to queue. -/
def Pc.deferred : Pc → Option ℕ
  | .deferHead p | .deferTail p _ | .deferIndex p | .deferStore p _ | .deferBump p => some p
  | _ => none

/-- The thread is in `rcu_update`. -/
def Pc.updating : Pc → Bool
  | .updateTest _ | .updateLast _ _ | .updateLoad _ | .updateRecord _ _ | .updatePost _ _
  | .freeTail | .freeTest _ | .freeIndex | .freeLoad _ | .freeCall _ | .freeBump => true
  | _ => false

section Steps

variable {N t : ℕ} {s s' : Ring} {pc pc' : Pc} {c : Cmd}

/-- What a step adds to the history. -/
theorem step_log (hstep : step N t s pc c = some (s', pc')) :
    s'.log = s.log ∨ (∃ p, pc.deferred = some p ∧ s'.log = s.log ++ [.put t p])
      ∨ pc.updating = true ∧ ∃ x, (x = .update t ∨ ∃ p, x = .free t p) ∧ s'.log = s.log ++ [x] := by
  cases pc <;> cases c <;> simp only [step, reduceCtorEq] at hstep
  all_goals
    repeat' split at hstep
    all_goals cases hstep
  all_goals first
    | exact .inl rfl
    | exact .inr (.inl ⟨_, rfl, rfl⟩)
    | exact .inr (.inr ⟨rfl, _, .inl rfl, rfl⟩)
    | exact .inr (.inr ⟨rfl, _, .inr ⟨_, rfl⟩, rfl⟩)

theorem updateFrom_cases (N t i : ℕ) :
    (∃ j, updateFrom N t i = .updateTest j) ∨ updateFrom N t i = .freeTail := by
  unfold updateFrom
  dsimp only
  split
  all_goals
    split
    · exact .inl ⟨_, rfl⟩
    · exact .inr rfl

/-- A pointer that is to be queued came with the call. -/
theorem step_deferred (hstep : step N t s pc c = some (s', pc')) {p : ℕ}
    (hp : pc'.deferred = some p) : pc.deferred = some p ∨ c = .deferFree p := by
  cases pc <;> cases c <;> simp only [step, reduceCtorEq] at hstep
  all_goals
    repeat' split at hstep
    all_goals cases hstep
  all_goals first
    | exact .inl hp
    | exact .inr (congrArg Cmd.deferFree (Option.some.inj hp))
    | cases hp
    | rcases updateFrom_cases N t _ with ⟨j, heq⟩ | heq <;> rw [heq] at hp <;> cases hp

/-- A thread is in `rcu_update` from the call on. -/
theorem step_updating (hstep : step N t s pc c = some (s', pc')) (hu : pc'.updating = true) :
    pc.updating = true ∨ c = .update := by
  cases pc <;> cases c <;> simp only [step, reduceCtorEq] at hstep
  all_goals
    repeat' split at hstep
    all_goals cases hstep
  all_goals first
    | exact .inl rfl
    | exact .inr rfl
    | cases hu

end Steps

/-! ## What the program has to provide -/

/-- The program keeps to the rules of the scheme.  `Gone` memory was handed over; a thread
that is `Apart` from it does not come to it any more. -/
structure Client.Reclaims (P : Client σ κ ι) (ok : ℕ → σ → κ → ι → Prop) (Inv : σ → Prop)
    (Loc : ℕ → σ → κ → Prop) (Rely : ℕ → σ → σ → Prop) (Gone : σ → ℕ → Prop)
    (Apart : σ → ℕ → κ → Prop) : Prop where
  base : RelyGuarantee P.step ok Inv Loc Rely
  refl : ∀ u s, Rely u s s
  /-- What is passed to `rcu_defer_free` is gone. -/
  hands : ∀ t s k i s' k' a, Inv s → Loc t s k → ok t s k i → P.step t s k i = some (s', k') →
    P.defers k i = some a → Gone s' a
  /-- What is gone stays away. -/
  keeps : ∀ t s k i s' k' a, Inv s → Loc t s k → ok t s k i → P.step t s k i = some (s', k') →
    Gone s a → Gone s' a
  /-- Between two operations a thread holds no pointer. -/
  idle : ∀ s a k, P.idle k = true → Apart s a k
  step : ∀ t s k i s' k' a, Inv s → Loc t s k → ok t s k i → P.step t s k i = some (s', k') →
    Gone s a → Apart s a k → Apart s' a k'
  stable : ∀ u s s' k a, Inv s → Loc u s k → Rely u s s' → Gone s a → Apart s a k → Apart s' a k

section Runs

variable {P : Client σ κ ι} {ok : ℕ → σ → κ → ι → Prop} {Inv : σ → Prop} {Loc : ℕ → σ → κ → Prop}
  {Rely : ℕ → σ → σ → Prop} {Gone : σ → ℕ → Prop} {Apart : σ → ℕ → κ → Prop} {N t : ℕ}
  {s s' : σ × Ring} {k k' : κ × Pc} {i : Input ι}

/-- A step is one of an operation, with or without a call of `rcu_defer_free`, or one of a
function of `rcu.c`. -/
theorem Client.guarded_cases (h : P.guarded N t s k i = some (s', k')) :
    (∃ j, i = .work j ∧ t < N ∧ k.2 = .returned ∧ P.step t s.1 k.1 j = some (s'.1, k'.1)
        ∧ (P.defers k.1 j = none ∧ s'.2 = s.2 ∧ k'.2 = .returned
          ∨ ∃ p, P.defers k.1 j = some p
            ∧ Rcu.step N t s.2 .returned (.deferFree p) = some (s'.2, k'.2)))
      ∨ ∃ c, (c = .update ∧ P.idle k.1 = true ∨ c = .resume) ∧ s'.1 = s.1 ∧ k'.1 = k.1
        ∧ Rcu.step N t s.2 k.2 c = some (s'.2, k'.2) := by
  cases i with
  | work j =>
    simp only [guarded] at h
    split at h
    · rename_i hcond
      split at h
      · rename_i r hr hd
        cases h
        exact .inl ⟨j, rfl, hcond.1, hcond.2, hr, .inl ⟨hd, rfl, rfl⟩⟩
      · rename_i r p hr hd
        obtain ⟨q, hq, heq⟩ := Option.map_eq_some_iff.mp h
        cases heq
        exact .inl ⟨j, rfl, hcond.1, hcond.2, hr, .inr ⟨p, hd, hq⟩⟩
      · cases h
    · cases h
  | update =>
    simp only [guarded] at h
    split at h
    · rename_i hidle
      obtain ⟨q, hq, heq⟩ := Option.map_eq_some_iff.mp h
      cases heq
      exact .inr ⟨.update, .inl ⟨rfl, hidle⟩, rfl, rfl, hq⟩
    · cases h
  | resume =>
    obtain ⟨q, hq, heq⟩ := Option.map_eq_some_iff.mp h
    cases heq
    exact .inr ⟨.resume, .inr rfl, rfl, rfl, hq⟩

theorem Client.guarded_work {j : ι} (h : P.guarded N t s k (.work j) = some (s', k')) :
    P.step t s.1 k.1 j = some (s'.1, k'.1) := by
  simp only [guarded] at h
  split at h
  · split at h
    · rename_i r hr _
      cases h
      exact hr
    · rename_i r p hr _
      obtain ⟨q, -, heq⟩ := Option.map_eq_some_iff.mp h
      cases heq
      exact hr
    · cases h
  · cases h

/-- The shared part of the invariant: what was queued is gone. -/
def Client.Shared (N : ℕ) (Inv : σ → Prop) (Gone : σ → ℕ → Prop) (s : σ × Ring) : Prop :=
  Inv s.1 ∧ Rcu.Shared N s.2 ∧ ∀ t a, .put t a ∈ s.2.log → Gone s.1 a

/-- The local part: the thread works apart from what it has passed since it was queued, and
from what was freed. -/
structure Client.Local (P : Client σ κ ι) (N : ℕ) (Loc : ℕ → σ → κ → Prop) (Gone : σ → ℕ → Prop)
    (Apart : σ → ℕ → κ → Prop) (t : ℕ) (s : σ × Ring) (k : κ × Pc) : Prop where
  loc : Loc t s.1 k.1
  ring : Rcu.Local N t s.2 k.2
  deferred : ∀ a, k.2.deferred = some a → Gone s.1 a
  updating : k.2.updating = true → P.idle k.1 = true
  outside : N ≤ t → P.idle k.1 = true
  apart : ∀ a, Passed t s.2.log a ∨ Freed s.2.log a → Apart s.1 a k.1

/-- What thread `u` relies on. -/
structure Client.Relies (N : ℕ) (Rely : ℕ → σ → σ → Prop) (Gone : σ → ℕ → Prop) (u : ℕ)
    (s s' : σ × Ring) : Prop where
  base : Rely u s.1 s'.1
  ring : Rcu.Rely N u s.2 s'.2
  gone : ∀ a, Gone s.1 a → Gone s'.1 a
  log : ∃ l, s'.2.log = s.2.log ++ l ∧ .update u ∉ l ∧ ∀ p, .free u p ∉ l
  grace : GracePeriod N s'.2.log

/-- What was passed or freed is gone. -/
theorem Client.Shared.gone (h : Client.Shared N Inv Gone s) {a : ℕ}
    (ha : Passed t s.2.log a ∨ Freed s.2.log a) : Gone s.1 a := by
  obtain ⟨-, hring, hput⟩ := h
  have hq : ∃ t, .put t a ∈ s.2.log := ha.elim Passed.queued (Freed.queued hring.grace)
  obtain ⟨u, hu⟩ := hq
  exact hput u a hu

theorem Client.Reclaims.local_stable (h : P.Reclaims ok Inv Loc Rely Gone Apart) {u : ℕ}
    (hs : Client.Shared N Inv Gone s) (hr : Client.Relies N Rely Gone u s s')
    (hl : P.Local N Loc Gone Apart u s k) : P.Local N Loc Gone Apart u s' k where
  loc := h.base.stable u s.1 s'.1 k.1 hs.1 hr.base hl.loc
  ring := Rcu.Local.stable hs.2.1 hr.ring hl.ring
  deferred := fun a ha => hr.gone a (hl.deferred a ha)
  updating := hl.updating
  outside := hl.outside
  apart := by
    intro a ha
    by_cases hu : N ≤ u
    · exact h.idle s'.1 a k.1 (hl.outside hu)
    · obtain ⟨l, hlog, hup, hfree⟩ := hr.log
      have hgrace := hr.grace
      rw [hlog] at ha hgrace
      -- what the others queue, pass or free is nothing new to the thread
      have hold : Passed u s.2.log a ∨ Freed s.2.log a := by
        rcases ha with ha | ha
        · exact .inl (ha.of_append hup)
        · exact (ha.passed hgrace (Nat.lt_of_not_le hu) hfree hup).symm
      exact h.stable u s.1 s'.1 k.1 a hs.1 hl.loc hr.base (hs.gone hold) (hl.apart a hold)

/-- A step of an operation. -/
theorem Client.Reclaims.work (h : P.Reclaims ok Inv Loc Rely Gone Apart) {j : ι}
    (hs : Client.Shared N Inv Gone s) (hl : P.Local N Loc Gone Apart t s k) (ht : t < N)
    (hok : ok t s.1 k.1 j) (hstep : P.step t s.1 k.1 j = some (s'.1, k'.1))
    (hlog : s'.2.log = s.2.log) (hring : Rcu.Shared N s'.2 ∧ Rcu.Local N t s'.2 k'.2
      ∧ ∀ u, u ≠ t → Rcu.Rely N u s.2 s'.2)
    (hdef : ∀ a, k'.2.deferred = some a → P.defers k.1 j = some a)
    (hup : k'.2.updating = false) :
    Client.Shared N Inv Gone s' ∧ P.Local N Loc Gone Apart t s' k'
      ∧ ∀ u, u ≠ t → Client.Relies N Rely Gone u s s' := by
  obtain ⟨hinv, hloc, hrely⟩ := h.base.guarantee t s.1 k.1 j s'.1 k'.1 hs.1 hl.loc hok hstep
  have hkeep : ∀ a, Gone s.1 a → Gone s'.1 a := fun a ha =>
    h.keeps t s.1 k.1 j s'.1 k'.1 a hs.1 hl.loc hok hstep ha
  refine ⟨⟨hinv, hring.1, fun u a ha => ?_⟩, ⟨hloc, hring.2.1, fun a ha => ?_, fun hu => ?_,
    fun hN => ?_, fun a ha => ?_⟩, fun u hu => ⟨hrely u hu, hring.2.2 u hu, hkeep,
      ⟨[], ?_, List.not_mem_nil, fun _ => List.not_mem_nil⟩, hring.1.grace⟩⟩
  · rw [hlog] at ha
    exact hkeep a (hs.2.2 u a ha)
  · exact h.hands t s.1 k.1 j s'.1 k'.1 a hs.1 hl.loc hok hstep (hdef a ha)
  · rw [hup] at hu
    cases hu
  · omega
  · rw [hlog] at ha
    exact h.step t s.1 k.1 j s'.1 k'.1 a hs.1 hl.loc hok hstep (hs.gone ha) (hl.apart a ha)
  · rw [List.append_nil, hlog]

/-- A step of a function of `rcu.c`. -/
theorem Client.Reclaims.ring (h : P.Reclaims ok Inv Loc Rely Gone Apart) {c : Cmd}
    (hs : Client.Shared N Inv Gone s) (hl : P.Local N Loc Gone Apart t s k)
    (hc : c = .update ∧ P.idle k.1 = true ∨ c = .resume) (hsame : s'.1 = s.1) (hkeep : k'.1 = k.1)
    (hstep : Rcu.step N t s.2 k.2 c = some (s'.2, k'.2)) :
    Client.Shared N Inv Gone s' ∧ P.Local N Loc Gone Apart t s' k'
      ∧ ∀ u, u ≠ t → Client.Relies N Rely Gone u s s' := by
  obtain ⟨hring, hloc, hrely⟩ :=
    (relyGuarantee N).guarantee t s.2 k.2 c s'.2 k'.2 hs.2.1 hl.ring trivial hstep
  have hcall : ∀ p, c ≠ .deferFree p := by
    rintro p rfl
    simp at hc
  -- what the step adds to the history is its own
  have hadds : ∃ l, s'.2.log = s.2.log ++ l ∧ (∀ u a, .put u a ∈ l → k.2.deferred = some a)
      ∧ (∀ x ∈ l, (∀ u a, x ≠ .put u a) → k.2.updating = true)
      ∧ ∀ u, u ≠ t → .update u ∉ l ∧ ∀ p, .free u p ∉ l := by
    rcases step_log hstep with hlog | ⟨p, hp, hlog⟩ | ⟨hup, x, hx, hlog⟩
    · exact ⟨[], by rw [hlog, List.append_nil], by simp, by simp, by simp⟩
    · refine ⟨_, hlog, fun u a ha => ?_, fun x hx hne => ?_, by simp⟩
      · cases List.mem_singleton.mp ha
        exact hp
      · exact absurd (List.mem_singleton.mp hx) (hne t p)
    · refine ⟨_, hlog, fun u a ha => ?_, fun _ _ _ => hup, fun u hu => ⟨fun hm => ?_, fun p hm => ?_⟩⟩
      · rcases hx with rfl | ⟨p, rfl⟩ <;> cases List.mem_singleton.mp ha
      · rcases hx with rfl | ⟨p, rfl⟩ <;> cases List.mem_singleton.mp hm
        exact hu rfl
      · rcases hx with rfl | ⟨q, rfl⟩ <;> cases List.mem_singleton.mp hm
        exact hu rfl
  obtain ⟨l, hlog, hput, hown, hothers⟩ := hadds
  refine ⟨⟨hsame ▸ hs.1, hring, fun u a ha => ?_⟩, ⟨?_, hloc, fun a ha => ?_, fun hup => ?_,
    fun hN => ?_, fun a ha => ?_⟩, fun u hu => ⟨?_, hrely u hu, fun a ha => ?_,
      ⟨l, hlog, hothers u hu⟩, hring.grace⟩⟩
  · rw [hsame]
    rw [hlog] at ha
    rcases List.mem_append.mp ha with ha | ha
    · exact hs.2.2 u a ha
    · exact hl.deferred a (hput u a ha)
  · rw [hsame, hkeep]
    exact hl.loc
  · rw [hsame]
    exact hl.deferred a ((step_deferred hstep ha).resolve_right (hcall a))
  · rw [hkeep]
    rcases step_updating hstep hup with hup | rfl
    · exact hl.updating hup
    · exact (hc.resolve_right nofun).2
  · rw [hkeep]
    exact hl.outside hN
  · rw [hsame, hkeep]
    by_cases hup : k.2.updating = true
    · exact h.idle s.1 a k.1 (hl.updating hup)
    · -- outside of `rcu_update` the thread passes nothing and frees nothing
      rw [hlog] at ha
      refine hl.apart a (ha.imp (fun hp => hp.of_append fun hm => ?_) fun ⟨u, hf⟩ => ?_)
      · exact hup (hown _ hm nofun)
      · rcases List.mem_append.mp hf with hf | hf
        · exact ⟨u, hf⟩
        · exact absurd (hown _ hf nofun) hup
  · rw [hsame]
    exact h.refl u s.1
  · rw [hsame]
    exact ha

theorem Client.Reclaims.relyGuarantee (h : P.Reclaims ok Inv Loc Rely Gone Apart) (N : ℕ) :
    RelyGuarantee (P.guarded N) (Input.Meets ok) (Client.Shared N Inv Gone)
      (P.Local N Loc Gone Apart) (Client.Relies N Rely Gone) where
  guarantee := by
    intro t s k i s' k' hs hl hok hstep
    rcases Client.guarded_cases hstep with ⟨j, rfl, ht, hk, hwork, hdef⟩ | ⟨c, hc, hsame, hkeep, hring⟩
    · have hloc := hl.ring
      rw [hk] at hloc
      rcases hdef with ⟨-, heq, hk'⟩ | ⟨p, hp, hring⟩
      · refine h.work hs hl ht hok hwork (congrArg Ring.log heq) ?_ (by rw [hk']; nofun)
          (by rw [hk']; rfl)
        rw [heq, hk']
        exact ⟨hs.2.1, hloc, fun u _ => Rcu.Rely.refl N u s.2⟩
      · have hguar := (Rcu.relyGuarantee N).guarantee t s.2 .returned (.deferFree p) s'.2 k'.2
          hs.2.1 hloc trivial hring
        simp only [Rcu.step] at hring
        split at hring
        · obtain ⟨heq, hk'⟩ := Prod.mk.inj (Option.some.inj hring)
          refine h.work hs hl ht hok hwork (congrArg Ring.log heq.symm) hguar ?_ (by rw [← hk']; rfl)
          intro a ha
          rw [← hk'] at ha
          cases ha
          exact hp
        · cases hring
    · exact h.ring hs hl hc hsame hkeep hring
  stable := fun _ _ _ _ hs hr hl => h.local_stable hs hr hl

theorem Client.Reclaims.start_holds (h : P.Reclaims ok Inv Loc Rely Gone Apart) {c : Conf σ κ}
    (N : ℕ) (junk : ℕ → ℕ → ℕ) (hc : c.Holds Inv Loc) (hidle : ∀ t, P.idle (c.thread t) = true) :
    (Client.start c junk).Holds (Client.Shared N Inv Gone) (P.Local N Loc Gone Apart) := by
  obtain ⟨hshared, hlocal⟩ := init_holds N junk
  refine ⟨⟨hc.1, hshared, fun _ _ hm => absurd hm List.not_mem_nil⟩, fun t => ?_⟩
  exact ⟨hc.2 t, hlocal t, nofun, nofun, fun _ => hidle t, fun a _ => h.idle _ a _ (hidle t)⟩

/-- **Deferred freeing.**  Memory that has been freed is gone, and every thread works apart
from it. -/
theorem Client.Reclaims.apart_of_freed (h : P.Reclaims ok Inv Loc Rely Gone Apart)
    {c : Conf σ κ} {c' : Conf (σ × Ring) (κ × Pc)} {junk : ℕ → ℕ → ℕ} {es : List (ℕ × Input ι)}
    (hc : c.Holds Inv Loc) (hidle : ∀ t, P.idle (c.thread t) = true)
    (hok : StepsMeet (P.sys N) (onThread (Input.Meets ok)) (Client.start c junk) es)
    (hrun : run (P.sys N) (Client.start c junk) es = some c') {a : ℕ}
    (ha : Freed c'.shared.2.log a) :
    Gone c'.shared.1 a ∧ ∀ u, Apart c'.shared.1 a (c'.thread u).1 := by
  obtain ⟨hs, hl⟩ := (h.relyGuarantee N).holds_run (h.start_holds N junk hc hidle) hok hrun
  exact ⟨hs.gone (t := 0) (.inr ha), fun u => (hl u).apart a (.inr ha)⟩

/-! ## Programs with a record of the past -/

variable {γ : Type*} {after : ℕ → σ → γ → κ → ι → γ}

/-- The program with a record of its past. -/
def Client.withStory (P : Client σ κ ι) (after : ℕ → σ → γ → κ → ι → γ) : Client (σ × γ) κ ι where
  step := Interleaving.withStory P.step after
  idle := P.idle
  defers := P.defers

/-- What a step of the system adds to the record. -/
def Input.record (after : ℕ → σ → γ → κ → ι → γ) (t : ℕ) (s : σ × Ring) (g : γ) (k : κ × Pc) :
    Input ι → γ
  | .work i => after t s.1 g k.1 i
  | .update | .resume => g

/-- The system with a record is the one of the program with its record. -/
theorem Client.guarded_withStory {s s' : (σ × Ring) × γ}
    (h : Interleaving.withStory (P.guarded N) (Input.record after) t s k i = some (s', k')) :
    (P.withStory after).guarded N t ((s.1.1, s.2), s.1.2) k i
      = some (((s'.1.1, s'.2), s'.1.2), k') := by
  obtain ⟨⟨σ₁, r⟩, g⟩ := s
  obtain ⟨⟨σ₂, r'⟩, g'⟩ := s'
  obtain ⟨hstep, hg⟩ := withStory_eq_some.mp h
  obtain rfl : g' = Input.record after t (σ₁, r) g k i := hg
  cases i with
  | work j =>
    simp only [guarded] at hstep ⊢
    split at hstep
    · rename_i hcond
      rw [if_pos hcond]
      have hstory : ∀ q : σ × κ, P.step t σ₁ k.1 j = some q →
          (P.withStory after).step t (σ₁, g) k.1 j = some ((q.1, after t σ₁ g k.1 j), q.2) :=
        fun q hq => withStory_eq_some.mpr ⟨hq, rfl⟩
      split at hstep
      · rename_i q hq hd
        rw [hstory q hq, show (P.withStory after).defers k.1 j = none from hd]
        cases hstep
        rfl
      · rename_i q p hq hd
        rw [hstory q hq, show (P.withStory after).defers k.1 j = some p from hd]
        obtain ⟨x, hx, heq⟩ := Option.map_eq_some_iff.mp hstep
        cases heq
        simp only [hx, Option.map_some]
        rfl
      · cases hstep
    · cases hstep
  | update =>
    simp only [guarded] at hstep ⊢
    split at hstep
    · rename_i hidle
      obtain ⟨x, hx, heq⟩ := Option.map_eq_some_iff.mp hstep
      rw [if_pos (show (P.withStory after).idle k.1 = true from hidle), hx]
      cases heq
      rfl
    · cases hstep
  | resume =>
    obtain ⟨x, hx, heq⟩ := Option.map_eq_some_iff.mp hstep
    simp only [guarded]
    rw [hx]
    cases heq
    rfl

end Runs

/-- **Deferred freeing**, where the rules are kept by the program with a record of its past. -/
theorem Client.Reclaims.apart_of_freed_story {γ : Type*} {after : ℕ → σ → γ → κ → ι → γ}
    {P : Client σ κ ι} {ok : ℕ → σ → κ → ι → Prop} {Inv : σ × γ → Prop}
    {Loc : ℕ → σ × γ → κ → Prop} {Rely : ℕ → σ × γ → σ × γ → Prop} {Gone : σ × γ → ℕ → Prop}
    {Apart : σ × γ → ℕ → κ → Prop} {N : ℕ}
    (h : (P.withStory after).Reclaims (fun t s k i => ok t s.1 k i) Inv Loc Rely Gone Apart)
    {c : Conf σ κ} {g : γ} {c' : Conf (σ × Ring) (κ × Pc)} {junk : ℕ → ℕ → ℕ}
    {es : List (ℕ × Input ι)} (hc : (c.withStory g).Holds Inv Loc)
    (hidle : ∀ t, P.idle (c.thread t) = true)
    (hok : StepsMeet (P.sys N) (onThread (Input.Meets ok)) (Client.start c junk) es)
    (hrun : run (P.sys N) (Client.start c junk) es = some c') :
    ∃ g', Inv (c'.shared.1, g') ∧ ∀ a, Freed c'.shared.2.log a →
      Gone (c'.shared.1, g') a ∧ ∀ u, Apart (c'.shared.1, g') a (c'.thread u).1 := by
  have hrule : RelyGuarantee (Interleaving.withStory (P.guarded N) (Input.record after))
      (fun t s k i => Input.Meets ok t s.1 k i)
      (fun s => Client.Shared N Inv Gone ((s.1.1, s.2), s.1.2))
      (fun t s k => (P.withStory after).Local N Loc Gone Apart t ((s.1.1, s.2), s.1.2) k)
      (fun u s s' => Client.Relies N Rely Gone u ((s.1.1, s.2), s.1.2) ((s'.1.1, s'.2), s'.1.2)) :=
    { guarantee := by
        intro t s k i s' k' hs hl hok hstep
        refine (h.relyGuarantee N).guarantee t _ k i _ k' hs hl ?_ (Client.guarded_withStory hstep)
        cases i <;> exact hok
      stable := fun u s s' k hs hr hl => (h.relyGuarantee N).stable u _ _ k hs hr hl }
  obtain ⟨hshared, hlocal⟩ := init_holds N junk
  have hstart : ((Client.start c junk).withStory g).Holds
      (fun s => Client.Shared N Inv Gone ((s.1.1, s.2), s.1.2))
      (fun t s k => (P.withStory after).Local N Loc Gone Apart t ((s.1.1, s.2), s.1.2) k) := by
    refine ⟨⟨hc.1, hshared, fun _ _ hm => absurd hm List.not_mem_nil⟩, fun t => ?_⟩
    exact ⟨hc.2 t, hlocal t, nofun, nofun, fun _ => hidle t, fun a _ => h.idle _ a _ (hidle t)⟩
  obtain ⟨g', hs, hl⟩ := hrule.holds_run_story hstart hok hrun
  exact ⟨g', hs.1, fun a ha => ⟨hs.gone (t := 0) (.inr ha), fun u => (hl u).apart a (.inr ha)⟩⟩

end Rcu
