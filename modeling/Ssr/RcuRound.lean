/-
# A round of updates frees what was deferred

A position that a thread has posted goes on by one place with every `rcu_update` on its way, and
the `rcu_update` that finds it back at its own thread frees all that was queued before it.

* `Posts` — what a thread has recorded as posted is what it wrote to its successor, and no more
  than nine pointers are not posted yet;
* `Passing` — an `rcu_update` that is passing a position on;
* `update_passes`, `update_frees` — what an `rcu_update` has done when it returns;
* `round_frees` — after a round of the ring at most nine of the pointers are not freed.
-/
import Ssr.RcuQueue
import Ssr.RcuClients

open Interleaving

namespace Rcu

/-! ## What a thread has posted -/

/-- The position of thread `i` that the thread has recorded last: `v` is what it wrote last. -/
def Pc.recorded (v i : ℕ) : Pc → ℕ
  | .updatePost m x => if i = m then x else v
  | _ => v

/-- The position of its own queue, which it writes first and records then. -/
def Pc.OwnPosted (N t : ℕ) (s : Ring) : Pc → Prop
  | .deferRecordLoad => s.rcu (nextIndex N t) t = s.head t
  | .deferRecord head => head = s.head t ∧ s.rcu (nextIndex N t) t = s.head t
  | .deferTest head => head = s.head t ∧ s.lastPosted t t = s.rcu (nextIndex N t) t
  | _ => s.lastPosted t t = s.rcu (nextIndex N t) t

/-- A pointer was queued, and the thread has not looked whether it has to post. -/
def Pc.counting : Pc → Bool
  | .deferCount | .deferTest _ | .deferPostLoad | .deferPost _ => true
  | _ => false

/-- What thread `t` wrote to its successor is what it has recorded. -/
structure Posts (N t : ℕ) (s : Ring) (pc : Pc) : Prop where
  others : ∀ i, i < N → i ≠ t → s.lastPosted t i = pc.recorded (s.rcu (nextIndex N t) i) i
  own : pc.OwnPosted N t s
  few : pc.counting = false → s.put t < s.pos (nextIndex N t) t + postThreshold

/-- The local invariant. -/
def Keeps (N t : ℕ) (s : Ring) (pc : Pc) : Prop := Local N t s pc ∧ (t < N → Posts N t s pc)

/-- What a thread relies on. -/
def Trusts (N u : ℕ) (s s' : Ring) : Prop := Rely N u s s' ∧ s'.lastPosted u = s.lastPosted u

section Posts

variable {N t : ℕ} {s s' : Ring} {pc pc' : Pc} {c : Cmd}

/-- A step that writes none of the words. -/
theorem Posts.same (hp : Posts N t s pc) (hlast : s'.lastPosted t = s.lastPosted t)
    (hrcu : s'.rcu (nextIndex N t) = s.rcu (nextIndex N t)) (hput : s'.put t = s.put t)
    (hfreed : s'.freed t = s.freed t) (hrec : ∀ v i, pc'.recorded v i = pc.recorded v i)
    (hown : pc.OwnPosted N t s → pc'.OwnPosted N t s')
    (hcount : pc'.counting = false → pc.counting = false) : Posts N t s' pc' where
  others i hi hne := by
    rw [hlast, hrcu, hrec]
    exact hp.others i hi hne
  own := hown hp.own
  few hc := by
    rw [Ring.pos, hput, hfreed, hrcu]
    exact hp.few (hcount hc)

/-- The position that is recorded next. -/
theorem recorded_updateFrom (N t i v m : ℕ) : (updateFrom N t i).recorded v m = v := by
  simp only [updateFrom]
  split_ifs <;> rfl

/-- The head that a thread has posted itself. -/
theorem ownPosted_updateFrom (i : ℕ) (h : s.lastPosted t t = s.rcu (nextIndex N t) t) :
    (updateFrom N t i).OwnPosted N t s := by
  simp only [updateFrom]
  split_ifs <;> exact h

/-- Below the threshold the positions do not wrap between the two words. -/
theorem few_of_test (hq : Queue s t 0) (hs : Shared N s) (ht : t < N)
    (hlast : s.lastPosted t t = s.rcu (nextIndex N t) t)
    (htest : ¬ postThreshold ≤ (s.head t + (2 ^ 64 - s.lastPosted t t)) % 2 ^ 64) :
    s.put t < s.pos (nextIndex N t) t + postThreshold := by
  have hword := hs.word t _ ht (nextIndex_lt ht)
  have hqueued := hs.queued t _ ht (nextIndex_lt ht)
  have hmod := seq_mod_self (f := s.freed t) hword
  have hle := le_seq (s.freed t) (s.rcu (nextIndex N t) t)
  have hroom := hq.room
  have hhead := hq.head_eq
  rw [hlast] at htest
  rw [Ring.pos] at hqueued ⊢
  rw [queueSize] at hroom
  rw [postThreshold] at htest ⊢
  omega

/-- A step that goes on in the loop of `rcu_update`. -/
theorem Posts.updateFrom (hp : Posts N t s pc) (hlast : s'.lastPosted t = s.lastPosted t)
    (hrcu : s'.rcu (nextIndex N t) = s.rcu (nextIndex N t)) (hput : s'.put t = s.put t)
    (hfreed : s'.freed t = s.freed t) (hrec : ∀ v i, pc.recorded v i = v)
    (hown : pc.OwnPosted N t s → s.lastPosted t t = s.rcu (nextIndex N t) t)
    (hcount : pc.counting = false) (i : ℕ) : Posts N t s' (updateFrom N t i) := by
  refine hp.same hlast hrcu hput hfreed (fun v m => ?_) (fun ho => ?_) fun _ => hcount
  · rw [recorded_updateFrom, hrec]
  · refine ownPosted_updateFrom i ?_
    rw [hlast, hrcu]
    exact hown ho

/-- **One step of a thread** leaves its record in order. -/
theorem posts_step (hs : Shared N s) (hl : Local N t s pc) (ht : t < N) (hp : Posts N t s pc)
    (hstep : step N t s pc c = some (s', pc')) : Posts N t s' pc' := by
  cases pc with
  | returned =>
    cases c <;> simp only [step, reduceCtorEq, Option.ite_none_right_eq_some] at hstep
    · obtain ⟨-, heq⟩ := hstep
      cases heq
      exact hp.same rfl rfl rfl rfl (fun _ _ => rfl) id id
    · obtain ⟨-, heq⟩ := hstep
      cases heq
      exact hp.updateFrom rfl rfl rfl rfl (fun _ _ => rfl) id rfl 0
  | deferHead p | deferIndex p | deferStore p i =>
    cases c <;> cases hstep
    exact hp.same rfl rfl rfl rfl (fun _ _ => rfl) id id
  | deferTail p head =>
    cases c <;> simp only [step, reduceCtorEq, Option.ite_none_right_eq_some] at hstep
    obtain ⟨-, heq⟩ := hstep
    cases heq
    exact hp.same rfl rfl rfl rfl (fun _ _ => rfl) id id
  | deferBump p =>
    cases c <;> cases hstep
    exact ⟨hp.others, hp.own, fun hc => Bool.noConfusion hc⟩
  | deferCount =>
    cases c <;> cases hstep
    exact ⟨hp.others, ⟨rfl, hp.own⟩, fun hc => Bool.noConfusion hc⟩
  | deferTest head =>
    obtain ⟨rfl, hlast⟩ := hp.own
    cases c <;> simp only [step, reduceCtorEq] at hstep
    split_ifs at hstep with htest <;> cases hstep
    · exact ⟨hp.others, hlast, fun hc => Bool.noConfusion hc⟩
    · exact ⟨hp.others, hlast, fun _ => few_of_test hl.2 hs ht hlast htest⟩
  | deferPostLoad =>
    cases c <;> cases hstep
    exact ⟨hp.others, hp.own, fun hc => Bool.noConfusion hc⟩
  | deferPost head =>
    obtain ⟨-, hq, rfl⟩ := hl
    cases c <;> cases hstep
    refine ⟨fun i hi hne => ?_, set_self .., fun _ => ?_⟩
    · rw [hp.others i hi hne]
      exact (set_of_ne fun heq => hne heq.2).symm
    · -- all that was queued is posted now
      have hroom := hq.room
      rw [queueSize] at hroom
      have hseq : seq (s.freed t) (s.head t) = s.put t := by
        rw [hq.head_eq]
        exact seq_mod hq.freed_le (by omega)
      change s.put t < seq (s.freed t) (set s.rcu (nextIndex N t) t (s.head t) (nextIndex N t) t) + _
      rw [set_self, hseq]
      exact Nat.lt_add_of_pos_right (by decide)
  | deferRecordLoad =>
    cases c <;> cases hstep
    exact ⟨hp.others, ⟨rfl, hp.own⟩, hp.few⟩
  | deferRecord head =>
    obtain ⟨rfl, hrcu⟩ := hp.own
    cases c <;> cases hstep
    refine ⟨fun i hi hne => ?_, ?_, hp.few⟩
    · exact (set_of_ne fun heq => hne heq.2).trans (hp.others i hi hne)
    · exact (set_self ..).trans hrcu.symm
  | updateTest i | updateLoad i | freeTail | freeIndex | freeLoad i | freeBump =>
    cases c <;> cases hstep
    exact hp.same rfl rfl (put_tick s t) (freed_tick s t) (fun _ _ => rfl) id id
  | updateLast i v =>
    cases c <;> simp only [step, reduceCtorEq] at hstep
    split_ifs at hstep <;> cases hstep
    · have hsame : (s.tick t).lastPosted t = s.lastPosted t := rfl
      exact hp.updateFrom hsame rfl (put_tick s t) (freed_tick s t) (fun _ _ => rfl) id rfl (i + 1)
    · exact hp.same rfl rfl (put_tick s t) (freed_tick s t) (fun _ _ => rfl) id id
  | updateRecord i x =>
    obtain ⟨-, -, -, hne, -⟩ := hl
    cases c <;> cases hstep
    refine ⟨fun m hm hmt => ?_, ?_, fun hc => ?_⟩
    · change set s.lastPosted t i x t m = if m = i then x else s.rcu (nextIndex N t) m
      by_cases hmi : m = i
      · rw [if_pos hmi, hmi, set_self]
      · rw [if_neg hmi, set_of_ne fun heq => hmi heq.2]
        exact hp.others m hm hmt
    · exact (set_of_ne fun heq => hne heq.2.symm).trans hp.own
    · have hfew := hp.few rfl
      rw [← put_tick, Ring.pos, ← freed_tick] at hfew
      exact hfew
  | updatePost i x =>
    obtain ⟨-, -, -, hne, -⟩ := hl
    cases c <;> cases hstep
    refine ⟨fun m hm hmt => ?_, ownPosted_updateFrom _ ?_, fun hc => ?_⟩
    · rw [recorded_updateFrom]
      refine (hp.others m hm hmt).trans ?_
      change (if m = i then x else s.rcu (nextIndex N t) m)
        = set s.rcu (nextIndex N t) i x (nextIndex N t) m
      by_cases hmi : m = i
      · rw [if_pos hmi, hmi, set_self]
      · rw [if_neg hmi, set_of_ne fun heq => hmi heq.2]
    · exact hp.own.trans (set_of_ne fun heq => hne heq.2.symm).symm
    · have hfew := hp.few rfl
      rw [← put_tick, Ring.pos, ← freed_tick] at hfew
      change (s.tick t).put t
        < seq ((s.tick t).freed t) (set s.rcu (nextIndex N t) i x (nextIndex N t) t) + postThreshold
      rw [set_of_ne fun heq => hne heq.2.symm]
      exact hfew
  | freeTest tail =>
    cases c <;> simp only [step, reduceCtorEq] at hstep
    split_ifs at hstep <;> cases hstep
    all_goals exact hp.same rfl rfl (put_tick s t) (freed_tick s t) (fun _ _ => rfl) id id
  | freeCall p =>
    obtain ⟨-, -, hlt, -⟩ := hl
    cases c <;> cases hstep
    refine ⟨hp.others, hp.own, fun hc => ?_⟩
    have hself := hs.pos_self_le ht _ (nextIndex_lt ht)
    have hput : Ring.put { s with log := s.log ++ [.free t p] } t = s.put t := by
      simp [Ring.put]
    have hfreed : Ring.freed { s with log := s.log ++ [.free t p] } t = s.freed t + 1 := by
      simp [Ring.freed]
    rw [hput, Ring.pos, hfreed]
    change s.put t < seq (s.freed t + 1) (s.rcu (nextIndex N t) t) + postThreshold
    rw [seq_succ (hs.word t _ ht (nextIndex_lt ht)) (hlt.trans_le hself)]
    exact hp.few rfl

/-- What a thread has posted is stable. -/
theorem Posts.stable (hr : Trusts N t s s') (ht : t < N) (hp : Posts N t s pc) :
    Posts N t s' pc := by
  obtain ⟨hr, hlast⟩ := hr
  refine hp.same hlast (hr.posted ht) (congrArg List.length hr.puts_eq)
    (congrArg List.length hr.frees_eq) (fun _ _ => rfl) (fun ho => ?_) id
  cases pc <;> simp only [Pc.OwnPosted, hr.head_eq, hlast, hr.posted ht] at ho ⊢ <;> exact ho

/-- A step writes only the row of its own thread in `rcu_last_posted_`. -/
theorem lastPosted_step {u : ℕ} (hu : u ≠ t) (hstep : step N t s pc c = some (s', pc')) :
    s'.lastPosted u = s.lastPosted u := by
  have hset : ∀ i v, set s.lastPosted t i v u = s.lastPosted u := fun i v => set_row_of_ne hu
  cases pc with
  | returned | deferTail =>
    cases c <;> simp only [step, reduceCtorEq, Option.ite_none_right_eq_some] at hstep
    all_goals
      obtain ⟨-, heq⟩ := hstep
      cases heq
      rfl
  | deferTest | updateLast | freeTest =>
    cases c <;> simp only [step, reduceCtorEq] at hstep
    split_ifs at hstep <;> cases hstep <;> rfl
  | deferRecord head | updateRecord i x =>
    cases c <;> cases hstep
    exact hset _ _
  | _ =>
    cases c <;> cases hstep
    rfl

/-- **Every thread keeps what the others rely on.** -/
theorem keeps (N : ℕ) : RelyGuarantee (step N) (fun _ _ _ _ => True) (Shared N) (Keeps N)
    (Trusts N) where
  guarantee := by
    rintro t s pc c s' pc' hs ⟨hl, hp⟩ - hstep
    obtain ⟨hs', hl', hr⟩ := step_guarantee hs hl hstep
    exact ⟨hs', ⟨hl', fun ht => posts_step hs hl ht (hp ht) hstep⟩,
      fun u hu => ⟨hr u hu, lastPosted_step hu hstep⟩⟩
  stable := fun u s s' pc hs hr hl =>
    ⟨Local.stable hs hr.1 hl.1, fun ht => (hl.2 ht).stable hr ht⟩

/-- It holds at the start. -/
theorem init_keeps (N : ℕ) (junk : ℕ → ℕ → ℕ) : (init junk).Holds (Shared N) (Keeps N) := by
  obtain ⟨hs, hl⟩ := init_holds N junk
  have hthreshold : 0 < postThreshold := by decide
  exact ⟨hs, fun t => ⟨hl t, fun _ => ⟨fun _ _ _ => rfl, rfl, fun _ => Nat.lt_add_left _ hthreshold⟩⟩⟩

end Posts

/-! ## Passing a position on -/

section Passing

variable {N j i P : ℕ} {s s' : Ring} {pc pc' : Pc} {c : Cmd}

/-- A step without a store moves no position. -/
@[simp] theorem pos_tick (s : Ring) (t j i : ℕ) : (s.tick t).pos j i = s.pos j i := by
  simp [Ring.pos, Ring.freed, Ring.tick]

/-- Nor does one that frees nothing of `i`. -/
theorem pos_le_of_freed {j i : ℕ} (hrcu : s'.rcu = s.rcu) (hfreed : s'.freed i = s.freed i) :
    s.pos j i ≤ s'.pos j i := by
  rw [Ring.pos, Ring.pos, hrcu, hfreed]

/-- What a thread holds itself never gets smaller. -/
theorem pos_own_le (hs : Shared N s) (hl : Local N j s pc) (hj : j < N) (hi : i < N)
    (hstep : step N j s pc c = some (s', pc')) : s.pos j i ≤ s'.pos j i := by
  have hset : ∀ m v, s.pos (nextIndex N j) m ≤ seq (s.freed m) v →
      s.pos j i ≤ Ring.pos { s with rcu := set s.rcu (nextIndex N j) m v } j i := by
    intro m v hge
    simp only [Ring.pos, Ring.freed]
    by_cases hji : j = nextIndex N j ∧ i = m
    · obtain ⟨hj', rfl⟩ := hji
      rw [← hj', set_self]
      rw [← hj'] at hge
      exact hge
    · rw [set_of_ne hji]
  cases pc with
  | returned | deferTail =>
    cases c <;> simp only [step, reduceCtorEq, Option.ite_none_right_eq_some] at hstep
    all_goals
      obtain ⟨-, heq⟩ := hstep
      cases heq
      exact le_rfl
  | deferTest =>
    cases c <;> simp only [step, reduceCtorEq] at hstep
    split_ifs at hstep <;> cases hstep <;> exact le_rfl
  | updateLast | freeTest =>
    cases c <;> simp only [step, reduceCtorEq] at hstep
    split_ifs at hstep <;> cases hstep <;> exact (pos_tick s j j i).ge
  | deferBump p =>
    cases c <;> cases hstep
    refine pos_le_of_freed rfl ?_
    simp [Ring.freed]
  | deferPost head =>
    obtain ⟨-, hq, rfl⟩ := hl
    cases c <;> cases hstep
    refine hset j _ ?_
    have hroom := hq.room
    rw [queueSize] at hroom
    have hseq : seq (s.freed j) (s.head j) = s.put j := by
      rw [hq.head_eq]
      exact seq_mod hq.freed_le (by omega)
    rw [hseq]
    exact hs.queued j _ hj (nextIndex_lt hj)
  | updatePost m x =>
    obtain ⟨-, -, -, -, -, hlo, -⟩ := hl
    cases c <;> cases hstep
    rw [pos_tick]
    exact hset m x hlo
  | freeCall p =>
    obtain ⟨-, -, hlt, -⟩ := hl
    cases c <;> cases hstep
    by_cases hij : i = j
    · subst hij
      have hfreed : Ring.freed { s with log := s.log ++ [.free i p] } i = s.freed i + 1 := by
        simp [Ring.freed]
      rw [Ring.pos, Ring.pos, hfreed, seq_succ (hs.word i i hi hi) hlt]
    · refine pos_le_of_freed rfl ?_
      simp [Ring.freed, frees_free_of_ne (Ne.symm hij)]
  | updateTest | updateLoad | updateRecord | freeTail | freeIndex | freeLoad | freeBump =>
    cases c <;> cases hstep
    exact (pos_tick _ j j i).ge
  | _ =>
    cases c <;> cases hstep
    exact le_rfl

/-- Thread `j` has passed position `P` of the queue of thread `i` on, unless its `rcu_update` has
yet to. -/
def Passing (N j i P : ℕ) (s : Ring) : Pc → Prop
  | .updateTest m | .updateLoad m => m ≤ i ∨ P ≤ s.pos (nextIndex N j) i
  | .updateLast m v =>
    m < i ∨ P ≤ s.pos (nextIndex N j) i
      ∨ m = i ∧ v < 2 ^ 32 ∧ s.pos (nextIndex N j) i ≤ seq (s.freed i) v ∧ P ≤ seq (s.freed i) v
  | .updateRecord m x | .updatePost m x =>
    m < i ∨ P ≤ s.pos (nextIndex N j) i ∨ m = i ∧ P ≤ seq (s.freed i) x
  | _ => P ≤ s.pos (nextIndex N j) i

/-- A position that was passed on. -/
theorem Passing.of_le (h : P ≤ s.pos (nextIndex N j) i) : Passing N j i P s pc := by
  cases pc with
  | updateTest | updateLoad => exact .inr h
  | updateLast | updateRecord | updatePost => exact .inr (.inl h)
  | _ => exact h

/-- The loop of `rcu_update` goes on to the next thread. -/
theorem passing_updateFrom {m : ℕ} (hi : i < N) (hne : i ≠ j)
    (h : m ≤ i ∨ P ≤ s.pos (nextIndex N j) i) : Passing N j i P s (updateFrom N j m) := by
  obtain hm | h := h
  · simp only [updateFrom]
    split_ifs
    · exact .inl (by omega)
    · omega
    · exact .inl hm
    · omega
  · exact .of_le h

/-- What was passed on is stable. -/
theorem Passing.stable (hs : Shared N s) (hl : Local N j s pc) (hj : j < N) (hi : i < N)
    (hr : Rely N j s s') (h : Passing N j i P s pc) : Passing N j i P s' pc := by
  have hseq := hr.seq_eq hj i hi
  have hpos : s'.pos (nextIndex N j) i = s.pos (nextIndex N j) i := by
    rw [Ring.pos, hr.posted hj]
    exact hseq _ (hs.word i _ hi (nextIndex_lt hj)) le_rfl
  cases pc with
  | updateLast m v =>
    rw [Passing, hpos]
    obtain hlt | hP | ⟨hm, hv, hle, hP⟩ := h
    · exact .inl hlt
    · exact .inr (.inl hP)
    · rw [hseq v hv hle]
      exact .inr (.inr ⟨hm, hv, hle, hP⟩)
  | updateRecord m x | updatePost m x =>
    obtain ⟨-, -, -, -, hx, hle, -⟩ := hl
    rw [Passing, hpos]
    obtain hlt | hP | ⟨rfl, hP⟩ := h
    · exact .inl hlt
    · exact .inr (.inl hP)
    · rw [hseq x hx hle]
      exact .inr (.inr ⟨rfl, hP⟩)
  | updateTest | updateLoad =>
    rw [Passing, hpos]
    exact h
  | _ => exact .of_le (h.trans hpos.ge)

/-- **One step of the thread** that passes the position on. -/
theorem passing_step (hs : Shared N s) (hl : Local N j s pc) (hp : Posts N j s pc) (hj : j < N)
    (hi : i < N) (hne : i ≠ j) (hP : P ≤ s.pos j i) (h : Passing N j i P s pc)
    (hstep : step N j s pc c = some (s', pc')) : Passing N j i P s' pc' := by
  cases pc with
  | returned =>
    cases c <;> simp only [step, reduceCtorEq, Option.ite_none_right_eq_some] at hstep
    all_goals
      obtain ⟨-, heq⟩ := hstep
      cases heq
      exact .of_le h
  | deferTail =>
    cases c <;> simp only [step, reduceCtorEq, Option.ite_none_right_eq_some] at hstep
    obtain ⟨-, heq⟩ := hstep
    cases heq
    exact h
  | deferTest =>
    cases c <;> simp only [step, reduceCtorEq] at hstep
    split_ifs at hstep <;> cases hstep <;> exact h
  | deferPost head =>
    cases c <;> cases hstep
    change P ≤ seq (s.freed i) (set s.rcu (nextIndex N j) j head (nextIndex N j) i)
    rw [set_of_ne fun heq => hne heq.2]
    exact h
  | updateTest m =>
    have hv := hs.word i j hi hj
    have hle := hs.descending i j hi hj (Ne.symm hne)
    cases c <;> cases hstep
    rw [Passing, pos_tick, Ring.freed, Ring.tick, frees_append, frees_update, List.append_nil]
    obtain hm | h := h
    · obtain hlt | rfl := lt_or_eq_of_le hm
      · exact .inl hlt
      · exact .inr (.inr ⟨rfl, hv, hle, hP⟩)
    · exact .inr (.inl h)
  | updateLast m v =>
    cases c <;> simp only [step, reduceCtorEq] at hstep
    split_ifs at hstep with hlast <;> cases hstep
    · refine passing_updateFrom hi hne ?_
      rw [pos_tick]
      obtain hlt | h | ⟨rfl, -, -, hPv⟩ := h
      · exact .inl hlt
      · exact .inr h
      · -- the thread posted it before
        rw [hlast, hp.others m hi hne] at hPv
        exact .inr hPv
    · rw [Passing, pos_tick]
      obtain hlt | h | ⟨rfl, -⟩ := h
      · exact .inl hlt.le
      · exact .inr h
      · exact .inl le_rfl
  | updateLoad m =>
    cases c <;> cases hstep
    rw [Passing, pos_tick, Ring.freed, Ring.tick, frees_append, frees_update, List.append_nil]
    obtain hm | h := h
    · obtain hlt | rfl := lt_or_eq_of_le hm
      · exact .inl hlt
      · exact .inr (.inr ⟨rfl, hP⟩)
    · exact .inr (.inl h)
  | updateRecord m x =>
    cases c <;> cases hstep
    rw [Passing, pos_tick, Ring.freed, Ring.tick, frees_append, frees_update, List.append_nil]
    exact h
  | updatePost m x =>
    cases c <;> cases hstep
    refine passing_updateFrom hi hne ?_
    rw [pos_tick]
    by_cases him : i = m
    · subst him
      refine .inr ?_
      obtain hlt | h | ⟨-, hPx⟩ := h
      · exact absurd hlt (lt_irrefl _)
      · obtain ⟨-, -, -, -, -, hle, -⟩ := hl
        simp only [Ring.pos, Ring.freed, set_self]
        exact h.trans hle
      · simp only [Ring.pos, Ring.freed, set_self]
        exact hPx
    · have hpos : Ring.pos { s with rcu := set s.rcu (nextIndex N j) m x } (nextIndex N j) i
          = s.pos (nextIndex N j) i := by
        simp only [Ring.pos, Ring.freed, set_of_ne fun heq => him heq.2]
      rw [hpos]
      exact h.imp id fun h => h.resolve_right fun heq => him heq.1.symm
  | freeTest tail =>
    cases c <;> simp only [step, reduceCtorEq] at hstep
    split_ifs at hstep <;> cases hstep <;> exact .of_le (h.trans (pos_tick ..).ge)
  | freeCall p =>
    cases c <;> cases hstep
    refine .of_le (h.trans (pos_le_of_freed rfl ?_))
    simp [Ring.freed, frees_free_of_ne (Ne.symm hne)]
  | deferBump p =>
    cases c <;> cases hstep
    refine .of_le (h.trans (pos_le_of_freed rfl ?_))
    simp [Ring.freed]
  | freeTail | freeIndex | freeLoad | freeBump =>
    cases c <;> cases hstep
    exact .of_le (h.trans (pos_tick ..).ge)
  | _ =>
    cases c <;> cases hstep
    exact h

end Passing

/-! ## Freeing -/

section Emptying

variable {N i P : ℕ} {s s' : Ring} {pc pc' : Pc} {c : Cmd}

/-- Thread `i` has freed up to position `P`, unless its `rcu_update` has yet to. -/
def Emptying (i P : ℕ) (s : Ring) (pc : Pc) : Prop := pc.updating = true ∨ P ≤ s.freed i

/-- The loop that frees is still to come. -/
theorem emptying_updateFrom (m : ℕ) : Emptying i P s (updateFrom N i m) := by
  obtain ⟨m', h⟩ | h := updateFrom_cases N i m <;> rw [h] <;> exact .inl rfl

/-- What is to be freed is stable. -/
theorem Emptying.stable (hfrees : frees i s'.log = frees i s.log) (h : Emptying i P s pc) :
    Emptying i P s' pc :=
  h.imp_right fun hP => hP.trans (congrArg List.length hfrees).ge

/-- Nothing that was freed comes back. -/
theorem freed_le_step {t : ℕ} (hstep : step N t s pc c = some (s', pc')) :
    s.freed i ≤ s'.freed i := by
  have happ : ∀ x, s'.log = s.log ++ [x] → s.freed i ≤ s'.freed i := by
    intro x hx
    rw [Ring.freed, Ring.freed, hx, frees_append, List.length_append]
    exact Nat.le_add_right _ _
  obtain h | ⟨p, -, h⟩ | ⟨-, x, -, h⟩ := step_log hstep
  · rw [Ring.freed, Ring.freed, h]
  · exact happ _ h
  · exact happ _ h

/-- The loop is left only when all up to the position that came back is freed. -/
theorem emptying_step (hl : Local N i s pc) (hP : P ≤ s.pos i i) (h : Emptying i P s pc)
    (hstep : step N i s pc c = some (s', pc')) : Emptying i P s' pc' := by
  obtain hup | hfreed := h
  · cases pc with
    | updateLast =>
      cases c <;> simp only [step, reduceCtorEq] at hstep
      split_ifs at hstep <;> cases hstep
      · exact emptying_updateFrom _
      · exact .inl rfl
    | updatePost =>
      cases c <;> cases hstep
      exact emptying_updateFrom _
    | freeTest tail =>
      obtain ⟨-, hq, rfl⟩ := hl
      cases c <;> simp only [step, reduceCtorEq] at hstep
      split_ifs at hstep with htail <;> cases hstep
      · exact .inl rfl
      · -- the position in `rcu_[i][i]` is the one after the last pointer freed
        have hmod : s.tail i = s.freed i % 2 ^ 32 := by
          have htail_eq := hq.tail_eq
          have htail_lt := hq.tail_lt
          omega
        have hpos : s.pos i i = s.freed i := by
          rw [Ring.pos, ← not_ne_iff.mp htail, hmod]
          exact seq_mod le_rfl (by omega)
        exact .inr ((hP.trans hpos.le).trans (freed_tick s i).ge)
    | updateTest | updateLoad | updateRecord | freeTail | freeIndex | freeLoad | freeCall
    | freeBump =>
      cases c <;> cases hstep
      exact .inl rfl
    | _ => exact absurd hup Bool.false_ne_true
  · exact .inr (hfreed.trans (freed_le_step hstep))

end Emptying

/-! ## A round -/

section Round

variable {N j i P : ℕ} {c c' : Conf Ring Pc} {es : List (ℕ × Cmd)}

/-- What one thread keeps, and what it relies on, together with a property of thread `j`. -/
theorem keeps_and {Loc : Ring → Pc → Prop}
    (hown : ∀ s pc s' pc' c, Shared N s → Keeps N j s pc → Loc s pc →
      step N j s pc c = some (s', pc') → Loc s' pc')
    (hstable : ∀ s s' pc, Shared N s → Keeps N j s pc → Rely N j s s' → Loc s pc → Loc s' pc) :
    RelyGuarantee (step N) (fun _ _ _ _ => True) (Shared N)
      (fun t s pc => Keeps N t s pc ∧ (t = j → Loc s pc)) (Trusts N) where
  guarantee := by
    rintro t s pc c s' pc' hs ⟨hk, hloc⟩ - hstep
    obtain ⟨hs', hk', hr⟩ := (keeps N).guarantee t s pc c s' pc' hs hk trivial hstep
    refine ⟨hs', ⟨hk', ?_⟩, hr⟩
    rintro rfl
    exact hown s pc s' pc' c hs hk (hloc rfl) hstep
  stable := by
    rintro u s s' pc hs hr ⟨hk, hloc⟩
    refine ⟨(keeps N).stable u s s' pc hs hr hk, ?_⟩
    rintro rfl
    exact hstable s s' pc hs hk hr.1 (hloc rfl)

/-- A property that thread `j` and the others keep holds of `j` at the end of a run. -/
theorem holds_of_keeps_and (Loc : Ring → Pc → Prop)
    (hown : ∀ s pc s' pc' c, Shared N s → Keeps N j s pc → Loc s pc →
      step N j s pc c = some (s', pc') → Loc s' pc')
    (hstable : ∀ s s' pc, Shared N s → Keeps N j s pc → Rely N j s s' → Loc s pc → Loc s' pc)
    (hc : c.Holds (Shared N) (Keeps N)) (hloc : Loc c.shared (c.thread j))
    (hrun : run (sys N) c es = some c') : Loc c'.shared (c'.thread j) := by
  have hc' : c.Holds (Shared N) (fun t s pc => Keeps N t s pc ∧ (t = j → Loc s pc)) := by
    refine ⟨hc.1, fun t => ⟨hc.2 t, ?_⟩⟩
    rintro rfl
    exact hloc
  exact (((keeps_and hown hstable).holds_run hc' (stepsMeet_of_forall (fun _ _ => trivial) _ _)
    hrun).2 j).2 rfl

/-- **It holds in every run.** -/
theorem keeps_run (hc : c.Holds (Shared N) (Keeps N)) (hrun : run (sys N) c es = some c') :
    c'.Holds (Shared N) (Keeps N) :=
  (keeps N).holds_run hc (stepsMeet_of_forall (fun _ _ => trivial) _ _) hrun

/-- The positions a thread holds only grow. -/
theorem pos_le_run (hj : j < N) (hi : i < N) (hc : c.Holds (Shared N) (Keeps N))
    (hP : P ≤ c.shared.pos j i) (hrun : run (sys N) c es = some c') : P ≤ c'.shared.pos j i :=
  holds_of_keeps_and (fun s _ => P ≤ s.pos j i)
    (fun _ _ _ _ _ hs hk h hstep => h.trans (pos_own_le hs hk.1 hj hi hstep))
    (fun _ _ _ _ _ hr h => h.trans (hr.pos_le hj i hi)) hc hP hrun

/-- A run through a call of `rcu_update` by thread `j`, from the call on. -/
theorem update_split (hc : c.Holds (Shared N) (Keeps N)) (hrun : run (sys N) c es = some c')
    (hmem : (j, Cmd.update) ∈ es) (hj : j < N) (hi : i < N) (hP : P ≤ c.shared.pos j i) :
    ∃ c₁ r, c₁.Holds (Shared N) (Keeps N) ∧ P ≤ c₁.shared.pos j i
      ∧ c₁.thread j = updateFrom N j 0 ∧ run (sys N) c₁ r = some c' := by
  obtain ⟨l, r, rfl⟩ := List.append_of_mem hmem
  obtain ⟨c₁, hl, hr⟩ := run_append_eq_some.mp hrun
  obtain ⟨c₂, hstep, hr⟩ := run_cons_eq_some.mp hr
  have hc₁ := keeps_run hc hl
  have hP₁ := pos_le_run hj hi hc hP hl
  have hone : run (sys N) c₁ [(j, Cmd.update)] = some c₂ := run_cons_eq_some.mpr ⟨c₂, hstep, rfl⟩
  refine ⟨c₂, r, keeps_run hc₁ hone, pos_le_run hj hi hc₁ hP₁ hone, ?_, hr⟩
  obtain ⟨k, hprog, hthr⟩ := interleave_eq_some.mp hstep
  rw [hthr, Function.update_self]
  cases hpc : c₁.thread j with
  | returned =>
    rw [hpc] at hprog
    simp only [step, Option.ite_none_right_eq_some] at hprog
    exact (Prod.mk.inj (Option.some.inj hprog.2)).2.symm
  | _ =>
    rw [hpc] at hprog
    cases hprog

/-- **A complete `rcu_update` passes the positions of the other threads on.** -/
theorem update_passes (hj : j < N) (hi : i < N) (hne : i ≠ j) (hc : c.Holds (Shared N) (Keeps N))
    (hP : P ≤ c.shared.pos j i) (hrun : run (sys N) c es = some c')
    (hmem : (j, Cmd.update) ∈ es) (hret : c'.thread j = .returned) :
    P ≤ c'.shared.pos (nextIndex N j) i := by
  obtain ⟨c₁, r, hc₁, hP₁, hthr, hr⟩ := update_split hc hrun hmem hj hi hP
  have hend := holds_of_keeps_and (j := j) (fun s pc => P ≤ s.pos j i ∧ Passing N j i P s pc)
    (fun s pc s' pc' d hs hk h hstep =>
      ⟨h.1.trans (pos_own_le hs hk.1 hj hi hstep),
        passing_step hs hk.1 (hk.2 hj) hj hi hne h.1 h.2 hstep⟩)
    (fun s s' pc hs hk hr h => ⟨h.1.trans (hr.pos_le hj i hi), h.2.stable hs hk.1 hj hi hr⟩)
    hc₁ ⟨hP₁, by rw [hthr]; exact passing_updateFrom hi hne (.inl (Nat.zero_le i))⟩ hr
  rw [hret] at hend
  exact hend.2

/-- **A complete `rcu_update` frees** all up to the position that has come back. -/
theorem update_frees (hi : i < N) (hc : c.Holds (Shared N) (Keeps N))
    (hP : P ≤ c.shared.pos i i) (hrun : run (sys N) c es = some c')
    (hmem : (i, Cmd.update) ∈ es) (hret : c'.thread i = .returned) : P ≤ c'.shared.freed i := by
  obtain ⟨c₁, r, hc₁, hP₁, hthr, hr⟩ := update_split hc hrun hmem hi hi hP
  have hend := holds_of_keeps_and (j := i) (fun s pc => P ≤ s.pos i i ∧ Emptying i P s pc)
    (fun s pc s' pc' d hs hk h hstep =>
      ⟨h.1.trans (pos_own_le hs hk.1 hi hi hstep), emptying_step hk.1 h.1 h.2 hstep⟩)
    (fun s s' pc hs hk hr h => ⟨h.1.trans (hr.pos_le hi i hi), h.2.stable hr.frees_eq⟩)
    hc₁ ⟨hP₁, by rw [hthr]; exact emptying_updateFrom 0⟩ hr
  rw [hret] at hend
  exact hend.2.resolve_left Bool.false_ne_true

/-- The threads make complete calls of `rcu_update`, one after the other in the order of the list;
what else happens in between is arbitrary. -/
def Updates (N : ℕ) : List ℕ → Conf Ring Pc → List (ℕ × Cmd) → Prop
  | [], _, _ => True
  | j :: js, c, es => ∃ l r c₁, es = l ++ r ∧ run (sys N) c l = some c₁
      ∧ (j, Cmd.update) ∈ l ∧ c₁.thread j = .returned ∧ Updates N js c₁ r

/-- The `n` threads of the ring from thread `j` on. -/
def ringFrom (N : ℕ) : ℕ → ℕ → List ℕ
  | 0, _ => []
  | n + 1, j => j :: ringFrom N n (nextIndex N j)

/-- What has been freed stays freed. -/
theorem freed_le_run (hc : c.Holds (Shared N) (Keeps N)) (hrun : run (sys N) c es = some c')
    (hP : P ≤ c.shared.freed i) : P ≤ c'.shared.freed i :=
  holds_of_keeps_and (j := i) (fun s _ => P ≤ s.freed i)
    (fun _ _ _ _ _ _ _ h hstep => h.trans (freed_le_step hstep))
    (fun _ _ _ _ _ hr h => h.trans (congrArg List.length hr.frees_eq).ge) hc hP hrun

/-- By induction on the threads that the position has not come to. -/
theorem freed_of_updates (hi : i < N) (n : ℕ) : ∀ {j c es c'}, j < N → dist N i j + n + 1 = N →
    c.Holds (Shared N) (Keeps N) → P ≤ c.shared.pos j i → run (sys N) c es = some c' →
    Updates N (ringFrom N (n + 1) j) c es → P ≤ c'.shared.freed i := by
  induction n with
  | zero =>
    rintro j c es c' hj hd hc hP hrun ⟨l, r, c₁, rfl, hl, hmem, hret, -⟩
    obtain rfl : j = i := dist_inj hi hj hi (by rw [dist_self hi]; omega)
    obtain ⟨c₂, hl₂, hr⟩ := run_append_eq_some.mp hrun
    obtain rfl : c₁ = c₂ := Option.some.inj (hl.symm.trans hl₂)
    exact freed_le_run (keeps_run hc hl) hr (update_frees hi hc hP hl hmem hret)
  | succ n ih =>
    rintro j c es c' hj hd hc hP hrun ⟨l, r, c₁, rfl, hl, hmem, hret, hup⟩
    have hne : j ≠ i := by
      rintro rfl
      rw [dist_self hi] at hd
      omega
    obtain ⟨c₂, hl₂, hr⟩ := run_append_eq_some.mp hrun
    obtain rfl : c₁ = c₂ := Option.some.inj (hl.symm.trans hl₂)
    have hnext : dist N i (nextIndex N j) + n + 1 = N := by
      rw [dist_nextIndex hi hj hne]
      omega
    exact ih (nextIndex_lt hj) hnext (keeps_run hc hl)
      (update_passes hj hi hne.symm hc hP hl hmem hret) hr hup

end Round

/-- **A round of updates frees what was deferred.**  For any number `N` of initialised threads,
any reachable state and any interleaving from there: when thread `t` is between two calls and each
thread of the ring, from the successor of `t` on, makes a complete `rcu_update` in its turn, then
all but nine at most of the pointers that `t` has queued are freed. -/
theorem round_frees (N : ℕ) (junk : ℕ → ℕ → ℕ) (es : List (ℕ × Cmd)) (c : Conf Ring Pc)
    (hrun : run (sys N) (init junk) es = some c) (t : ℕ) (ht : t < N)
    (hret : c.thread t = .returned) (es' : List (ℕ × Cmd)) (c' : Conf Ring Pc)
    (hrun' : run (sys N) c es' = some c')
    (hround : Updates N (ringFrom N N (nextIndex N t)) c es') :
    (puts t c.shared.log).length < (frees t c'.shared.log).length + postThreshold := by
  have hc : c.Holds (Shared N) (Keeps N) := keeps_run (init_keeps N junk) hrun
  have hfew : c.shared.put t < c.shared.pos (nextIndex N t) t + postThreshold := by
    apply ((hc.2 t).2 ht).few
    rw [hret]
    rfl
  have hfreed : c.shared.pos (nextIndex N t) t ≤ c'.shared.freed t := by
    obtain ⟨n, rfl⟩ : ∃ n, N = n + 1 := ⟨N - 1, by omega⟩
    refine freed_of_updates ht n (nextIndex_lt ht) ?_ hc le_rfl hrun' hround
    rw [dist_nextIndex_self ht, zero_add]
  exact hfew.trans_le (Nat.add_le_add_right hfreed _)

/-- Thread 0 queues ten pointers. -/
def deferRun : List (ℕ × Cmd) :=
  (List.range 9).flatMap (fun p => (0, Cmd.deferFree (p + 1)) :: List.replicate 7 (0, Cmd.resume))
    ++ (0, Cmd.deferFree 10) :: List.replicate 11 (0, Cmd.resume)

/-- A complete `rcu_update` of thread 1, and then one of thread 0. -/
def updateRun : List (ℕ × Cmd) :=
  ((1, .update) :: List.replicate 7 (1, .resume))
    ++ ((0, .update) :: List.replicate 64 (0, .resume))

/-- Two threads, ten pointers. -/
theorem round_frees_two_threads :
    ∃ c c', run (sys 2) (init fun _ _ => 0) deferRun = some c
      ∧ run (sys 2) c updateRun = some c' ∧ (puts 0 c.shared.log).length = 10
      ∧ 10 < (frees 0 c'.shared.log).length + postThreshold := by
  have hmap : ((run (sys 2) (init fun _ _ => 0) deferRun).bind fun c =>
      (run (sys 2) c ((1, .update) :: List.replicate 7 (1, .resume))).bind fun c₁ =>
      (run (sys 2) c₁ ((0, .update) :: List.replicate 64 (0, .resume))).map fun c₂ =>
        (c.thread 0, (puts 0 c.shared.log).length, c₁.thread 1, c₂.thread 0))
      = some (.returned, 10, .returned, .returned) := by
    decide +kernel
  obtain ⟨c, hc, hmap⟩ := Option.bind_eq_some_iff.mp hmap
  obtain ⟨c₁, hc₁, hmap⟩ := Option.bind_eq_some_iff.mp hmap
  obtain ⟨c₂, hc₂, hmap⟩ := Option.map_eq_some_iff.mp hmap
  simp only [Prod.mk.injEq] at hmap
  obtain ⟨hret, hputs, hret₁, hret₂⟩ := hmap
  have hrun : run (sys 2) c updateRun = some c₂ := run_append_eq_some.mpr ⟨c₁, hc₁, hc₂⟩
  refine ⟨c, c₂, hc, hrun, hputs, ?_⟩
  rw [← hputs]
  refine round_frees 2 _ deferRun c hc 0 (by decide) hret updateRun c₂ hrun ?_
  exact ⟨_, _, c₁, rfl, hc₁, List.mem_cons_self, hret₁, _, [], c₂, (List.append_nil _).symm, hc₂,
    List.mem_cons_self, hret₂, trivial⟩

end Rcu
