/-
# The grace period of `rcu.c`

Queue positions travel around the ring modulo `2 ^ 32`.  Because a queue holds
fewer than `2 ^ 20` pointers, the position that a value on the ring stands for
can be read back from the number of pointers its thread has freed (`seq`), and
on these unwrapped positions the argument is the plain one:

* along the ring, starting behind thread `i`, the positions of `i` only get
  smaller (`Shared.descending`), so the position that comes back to `i` is the
  smallest of all;
* a position that has reached thread `j` was passed on by every thread between
  `i` and `j`, inside an `rcu_update`, after the pointers it covers were queued
  (`Shared.covered`).
-/
import Ssr.Rcu

open Interleaving

namespace Rcu

/-! ## The history -/

section History

/-- What is put in two parts of a run. -/
@[simp] theorem puts_append (t : ℕ) (l r : List Act) : puts t (l ++ r) = puts t l ++ puts t r :=
  List.filterMap_append

/-- What is freed in two parts of a run. -/
@[simp] theorem frees_append (t : ℕ) (l r : List Act) :
    frees t (l ++ r) = frees t l ++ frees t r :=
  List.filterMap_append

/-- What is put first. -/
theorem puts_cons (t : ℕ) (x : Act) (l : List Act) : puts t (x :: l) = puts t [x] ++ puts t l :=
  puts_append t [x] l

/-- `rcu_update` puts nothing. -/
@[simp] theorem puts_update (t u : ℕ) : puts t [.update u] = [] := rfl

/-- A free puts nothing. -/
@[simp] theorem puts_free (t u p : ℕ) : puts t [.free u p] = [] := rfl

/-- `rcu_update` itself frees nothing. -/
@[simp] theorem frees_update (t u : ℕ) : frees t [.update u] = [] := rfl

/-- A put frees nothing. -/
@[simp] theorem frees_put (t u p : ℕ) : frees t [.put u p] = [] := rfl

/-- A thread puts into its own queue. -/
@[simp] theorem puts_put_self (t p : ℕ) : puts t [.put t p] = [p] := by
  simp [puts]

/-- It puts nothing into the others. -/
theorem puts_put_of_ne {t u : ℕ} (h : u ≠ t) (p : ℕ) : puts t [.put u p] = [] := by
  simp [puts, h]

/-- A thread frees from its own queue. -/
@[simp] theorem frees_free_self (t p : ℕ) : frees t [.free t p] = [p] := by
  simp [frees]

/-- It frees nothing from the others. -/
theorem frees_free_of_ne {t u : ℕ} (h : u ≠ t) (p : ℕ) : frees t [.free u p] = [] := by
  simp [frees, h]

/-- What happened after thread `i` queued its `k`-th pointer. -/
def afterPut (i : ℕ) : ℕ → List Act → List Act
  | _, [] => []
  | k, .put t _ :: l =>
    if t = i then
      match k with
      | 0 => l
      | k + 1 => afterPut i k l
    else afterPut i k l
  | k, .free _ _ :: l => afterPut i k l
  | k, .update _ :: l => afterPut i k l

/-- The history splits at the `k`-th put. -/
theorem exists_split_afterPut (i : ℕ) {k p : ℕ} {log : List Act}
    (h : (puts i log)[k]? = some p) :
    ∃ a, log = a ++ .put i p :: afterPut i k log ∧ (puts i a).length = k := by
  induction log generalizing k with
  | nil => simp [puts] at h
  | cons x l ih =>
    rw [puts_cons] at h
    cases x with
    | put t q =>
      by_cases ht : t = i
      · subst ht
        rw [puts_put_self] at h
        cases k with
        | zero =>
          obtain rfl : q = p := by simpa using h
          exact ⟨[], by simp [afterPut], rfl⟩
        | succ k =>
          obtain ⟨a, ha, hk⟩ := ih (k := k) (by simpa using h)
          refine ⟨.put t q :: a, ?_, ?_⟩
          · simp only [afterPut, if_true, List.cons_append]
            rw [← ha]
          · rw [puts_cons, puts_put_self, List.length_append, hk, List.length_singleton,
              Nat.add_comm]
      · rw [puts_put_of_ne ht] at h
        obtain ⟨a, ha, hk⟩ := ih (by simpa using h)
        refine ⟨.put t q :: a, ?_, ?_⟩
        · simp only [afterPut, if_neg ht, List.cons_append]
          rw [← ha]
        · rw [puts_cons, puts_put_of_ne ht, List.nil_append, hk]
    | free t q =>
      obtain ⟨a, ha, hk⟩ := ih (by simpa using h)
      refine ⟨.free t q :: a, ?_, ?_⟩
      · simp only [afterPut, List.cons_append]
        rw [← ha]
      · rw [puts_cons, puts_free, List.nil_append, hk]
    | update t =>
      obtain ⟨a, ha, hk⟩ := ih (by simpa using h)
      refine ⟨.update t :: a, ?_, ?_⟩
      · simp only [afterPut, List.cons_append]
        rw [← ha]
      · rw [puts_cons, puts_update, List.nil_append, hk]

/-- Appending to the history appends to what came after an old put. -/
theorem afterPut_append (i : ℕ) {k : ℕ} {log : List Act} (h : k < (puts i log).length)
    (r : List Act) : afterPut i k (log ++ r) = afterPut i k log ++ r := by
  induction log generalizing k with
  | nil => simp [puts] at h
  | cons x l ih =>
    rw [puts_cons, List.length_append] at h
    cases x with
    | put t q =>
      by_cases ht : t = i
      · subst ht
        rw [puts_put_self] at h
        cases k with
        | zero => simp [afterPut]
        | succ k =>
          simp only [List.cons_append, afterPut, if_true]
          exact ih (by simp only [List.length_singleton] at h; omega)
      · rw [puts_put_of_ne ht] at h
        simp only [List.cons_append, afterPut, if_neg ht]
        exact ih (by simpa using h)
    | free t q =>
      simp only [List.cons_append, afterPut]
      exact ih (by simpa using h)
    | update t =>
      simp only [List.cons_append, afterPut]
      exact ih (by simpa using h)

/-- Nothing but a free can break the grace period. -/
theorem GracePeriod.append {N : ℕ} {log : List Act} (h : GracePeriod N log) {x : Act}
    (hx : ∀ t p, x = .free t p →
      ∃ a b, log = a ++ .put t p :: b ∧ (puts t a).length = (frees t log).length
        ∧ ∀ j, j < N → j ≠ t → .update j ∈ b) :
    GracePeriod N (log ++ [x]) := by
  intro l r t p hsplit
  rcases List.eq_nil_or_concat r with rfl | ⟨r', y, rfl⟩
  · obtain ⟨rfl, hxy⟩ := List.append_inj' hsplit rfl
    exact hx t p (by simpa using hxy)
  · rw [List.concat_eq_append, ← List.cons_append, ← List.append_assoc] at hsplit
    obtain ⟨rfl, -⟩ := List.append_inj' hsplit rfl
    exact h l r' t p rfl

end History

/-! ## Positions modulo `2 ^ 32` -/

/-- The position from `f` on that a `uint32_t` stands for. -/
def seq (f v : ℕ) : ℕ := f + (v + (2 ^ 32 - f % 2 ^ 32)) % 2 ^ 32

/-- A position is read off as one that is not freed. -/
theorem le_seq (f v : ℕ) : f ≤ seq f v := Nat.le_add_right _ _

/-- It is within one round of the counter. -/
theorem seq_lt (f v : ℕ) : seq f v < f + 2 ^ 32 :=
  Nat.add_lt_add_left (Nat.mod_lt _ (by decide)) f

/-- A position less than `2 ^ 32` ahead is read back. -/
theorem seq_mod {f k : ℕ} (h : f ≤ k) (h' : k < f + 2 ^ 32) : seq f (k % 2 ^ 32) = k := by
  unfold seq
  omega

/-- It is the one that the word stands for. -/
theorem seq_mod_self {f v : ℕ} (hv : v < 2 ^ 32) : seq f v % 2 ^ 32 = v := by
  unfold seq
  omega

/-- Freeing one pointer moves the origin past no position ahead of it. -/
theorem seq_succ {f v : ℕ} (hv : v < 2 ^ 32) (h : f < seq f v) : seq (f + 1) v = seq f v := by
  have h' := seq_lt f v
  have hmod := seq_mod (f := f + 1) (k := seq f v) h (by omega)
  rwa [seq_mod_self hv] at hmod

/-! ## Positions on the ring -/

/-- How far behind thread `i` (counted from its successor) thread `j` stands. -/
def dist (N i j : ℕ) : ℕ := (j + (N - (i + 1))) % N

/-- The way round to oneself is the longest. -/
theorem dist_self {N i : ℕ} (hi : i < N) : dist N i i = N - 1 := by
  unfold dist
  rw [show i + (N - (i + 1)) = N - 1 from by omega, Nat.mod_eq_of_lt (by omega)]

/-- The way round without a remainder. -/
theorem dist_eq {N i j : ℕ} (hi : i < N) (hj : j < N) :
    dist N i j = if i < j then j - (i + 1) else j + (N - (i + 1)) := by
  unfold dist
  split
  · rw [show j + (N - (i + 1)) = (j - (i + 1)) + N from by omega, Nat.add_mod_right,
      Nat.mod_eq_of_lt (by omega)]
  · rw [Nat.mod_eq_of_lt (by omega)]

/-- The next thread is a thread. -/
theorem nextIndex_lt {N t : ℕ} (ht : t < N) : nextIndex N t < N :=
  Nat.mod_lt _ (by omega)

/-- The next thread without a remainder. -/
theorem nextIndex_eq {N t : ℕ} (ht : t < N) :
    nextIndex N t = if t + 1 < N then t + 1 else 0 := by
  unfold nextIndex
  split
  · rw [Nat.mod_eq_of_lt (by assumption)]
  · rw [show t + 1 = N from by omega, Nat.mod_self]

/-- Passing a position on moves it one further. -/
theorem dist_nextIndex {N i j : ℕ} (hi : i < N) (hj : j < N) (hne : j ≠ i) :
    dist N i (nextIndex N j) = dist N i j + 1 := by
  rw [dist_eq hi (nextIndex_lt hj), dist_eq hi hj, nextIndex_eq hj]
  split_ifs <;> omega

/-- The next thread is the nearest. -/
theorem dist_nextIndex_self {N i : ℕ} (hi : i < N) : dist N i (nextIndex N i) = 0 := by
  rw [dist_eq hi (nextIndex_lt hi), nextIndex_eq hi]
  split_ifs <;> omega

/-- Every thread has its own way. -/
theorem dist_inj {N i j k : ℕ} (hi : i < N) (hj : j < N) (hk : k < N)
    (h : dist N i j = dist N i k) : j = k := by
  rw [dist_eq hi hj, dist_eq hi hk] at h
  split_ifs at h <;> omega

/-- The ways are shorter than the ring. -/
theorem dist_lt {N i j : ℕ} (hi : i < N) : dist N i j < N := Nat.mod_lt _ (by omega)

/-- Between a thread and its predecessor there is every other thread. -/
theorem dist_lt_dist_self {N i j : ℕ} (hi : i < N) (hj : j < N) (hne : j ≠ i) :
    dist N i j < dist N i i := by
  rw [dist_self hi]
  have h₁ := dist_lt (j := j) hi
  have h₂ : dist N i j ≠ N - 1 := fun h => hne (dist_inj hi hj hi (h.trans (dist_self hi).symm))
  omega

/-! ## The invariant -/

section Invariant

/-- How many pointers thread `i` has queued and freed. -/
def Ring.put (s : Ring) (i : ℕ) : ℕ := (puts i s.log).length

def Ring.freed (s : Ring) (i : ℕ) : ℕ := (frees i s.log).length

/-- The position of thread `i` that thread `j` holds. -/
def Ring.pos (s : Ring) (j i : ℕ) : ℕ := seq (s.freed i) (s.rcu j i)

/-- The shared part of the invariant. -/
structure Shared (N : ℕ) (s : Ring) : Prop where
  word : ∀ i j, i < N → j < N → s.rcu j i < 2 ^ 32
  queued : ∀ i j, i < N → j < N → s.pos j i ≤ s.put i
  descending : ∀ i j, i < N → j < N → j ≠ i → s.pos (nextIndex N j) i ≤ s.pos j i
  covered : ∀ i j, i < N → j < N → ∀ k, k < s.pos j i →
    ∀ m, m < N → dist N i m < dist N i j → .update m ∈ afterPut i k s.log
  grace : GracePeriod N s.log

/-- Along the ring the positions of thread `i` get smaller. -/
theorem Shared.pos_self_le {N : ℕ} {s : Ring} (h : Shared N s) {i : ℕ} (hi : i < N) :
    ∀ j, j < N → s.pos i i ≤ s.pos j i := by
  -- downwards on the distance, starting from `i`, the last on its ring
  have key : ∀ d j, j < N → dist N i j + d = N - 1 → s.pos i i ≤ s.pos j i := by
    intro d
    induction d with
    | zero =>
      intro j hj hd
      have : j = i := dist_inj hi hj hi (by rw [dist_self hi]; omega)
      rw [this]
    | succ d ih =>
      intro j hj hd
      have hne : j ≠ i := by
        rintro rfl
        rw [dist_self hi] at hd
        omega
      have hnext := ih (nextIndex N j) (nextIndex_lt hj) (by rw [dist_nextIndex hi hj hne]; omega)
      exact hnext.trans (h.descending i j hi hj hne)
  intro j hj
  have := dist_lt (N := N) (j := j) hi
  exact key (N - 1 - dist N i j) j hj (by omega)

/-- The queue of thread `t`, which no other thread touches.  `tail` lags behind
the pointers freed only between the `nbd_free` and the increment. -/
structure Queue (s : Ring) (t lag : ℕ) : Prop where
  head_eq : s.head t = s.put t % 2 ^ 32
  tail_eq : (s.tail t + lag) % 2 ^ 32 = s.freed t % 2 ^ 32
  tail_lt : s.tail t < 2 ^ 32
  freed_le : s.freed t ≤ s.put t
  room : s.put t < s.freed t + queueSize
  slots : ∀ k, s.freed t ≤ k → k < s.put t →
    (puts t s.log)[k]? = some (s.x t (k % queueSize))

/-- The local part of the invariant, by program counter. -/
def Local (N t : ℕ) (s : Ring) : Pc → Prop
  | .returned => Queue s t 0
  | .deferTail _ head => t < N ∧ Queue s t 0 ∧ head = s.head t
  | .deferIndex _ => t < N ∧ Queue s t 0 ∧ s.put t + 1 < s.freed t + queueSize
  | .deferStore _ i =>
    t < N ∧ Queue s t 0 ∧ s.put t + 1 < s.freed t + queueSize ∧ i = s.put t % queueSize
  | .deferBump p => t < N ∧ Queue s t 0 ∧ s.put t + 1 < s.freed t + queueSize
    ∧ s.x t (s.put t % queueSize) = p
  | .deferPost head => t < N ∧ Queue s t 0 ∧ head = s.head t
  | .updateTest i => t < N ∧ Queue s t 0 ∧ i < N ∧ i ≠ t
  | .updateLast i _ => t < N ∧ Queue s t 0 ∧ i < N ∧ i ≠ t
  | .updateLoad i => t < N ∧ Queue s t 0 ∧ i < N ∧ i ≠ t
  | .updateRecord i x | .updatePost i x =>
    t < N ∧ Queue s t 0 ∧ i < N ∧ i ≠ t ∧ x < 2 ^ 32
      ∧ s.pos (nextIndex N t) i ≤ seq (s.freed i) x ∧ seq (s.freed i) x ≤ s.pos t i
  | .freeTest tail => t < N ∧ Queue s t 0 ∧ tail = s.tail t
  | .freeIndex => t < N ∧ Queue s t 0 ∧ s.freed t < s.pos t t
  | .freeLoad i => t < N ∧ Queue s t 0 ∧ s.freed t < s.pos t t ∧ i = s.freed t % queueSize
  | .freeCall p => t < N ∧ Queue s t 0 ∧ s.freed t < s.pos t t
    ∧ (puts t s.log)[s.freed t]? = some p
  | .freeBump => t < N ∧ Queue s t 1
  | _ => t < N ∧ Queue s t 0

/-- What thread `u` relies on. -/
structure Rely (N u : ℕ) (s s' : Ring) : Prop where
  head_eq : s'.head u = s.head u
  tail_eq : s'.tail u = s.tail u
  x_eq : s'.x u = s.x u
  puts_eq : puts u s'.log = puts u s.log
  frees_eq : frees u s'.log = frees u s.log
  posted : u < N → s'.rcu (nextIndex N u) = s.rcu (nextIndex N u)
  pos_le : u < N → ∀ i, i < N → s.pos u i ≤ s'.pos u i
  seq_eq : u < N → ∀ i, i < N → ∀ v, v < 2 ^ 32 → s.pos (nextIndex N u) i ≤ seq (s.freed i) v →
    seq (s'.freed i) v = seq (s.freed i) v

/-- The steps of the others leave the queue alone. -/
theorem Queue.stable {N u lag : ℕ} {s s' : Ring} (hr : Rely N u s s') (h : Queue s u lag) :
    Queue s' u lag := by
  have hput : s'.put u = s.put u := congrArg List.length hr.puts_eq
  have hfreed : s'.freed u = s.freed u := congrArg List.length hr.frees_eq
  refine ⟨?_, ?_, ?_, ?_, ?_, fun k hk hk' => ?_⟩
  · rw [hr.head_eq, hput, h.head_eq]
  · rw [hr.tail_eq, hfreed, h.tail_eq]
  · rw [hr.tail_eq]
    exact h.tail_lt
  · rw [hput, hfreed]
    exact h.freed_le
  · rw [hput, hfreed]
    exact h.room
  · rw [hr.puts_eq, hr.x_eq]
    rw [hfreed] at hk
    rw [hput] at hk'
    exact h.slots k hk hk'

/-- **What a thread rests on** is stable. -/
theorem Local.stable {N u : ℕ} {s s' : Ring} (hs : Shared N s) (hr : Rely N u s s') {pc : Pc}
    (h : Local N u s pc) : Local N u s' pc := by
  have hput : s'.put u = s.put u := congrArg List.length hr.puts_eq
  have hfreed : s'.freed u = s.freed u := congrArg List.length hr.frees_eq
  have hpost : ∀ i x, u < N ∧ Queue s u 0 ∧ i < N ∧ i ≠ u ∧ x < 2 ^ 32
      ∧ s.pos (nextIndex N u) i ≤ seq (s.freed i) x ∧ seq (s.freed i) x ≤ s.pos u i →
      u < N ∧ Queue s' u 0 ∧ i < N ∧ i ≠ u ∧ x < 2 ^ 32
      ∧ s'.pos (nextIndex N u) i ≤ seq (s'.freed i) x ∧ seq (s'.freed i) x ≤ s'.pos u i := by
    rintro i x ⟨hu, hq, hi, hne, hx, hlo, hhi⟩
    have hw := hs.word i _ hi (nextIndex_lt hu)
    have hpos : s'.pos (nextIndex N u) i = s.pos (nextIndex N u) i := by
      unfold Ring.pos
      rw [hr.posted hu]
      exact hr.seq_eq hu i hi _ hw le_rfl
    refine ⟨hu, hq.stable hr, hi, hne, hx, ?_, ?_⟩
    · rw [hpos, hr.seq_eq hu i hi x hx hlo]
      exact hlo
    · rw [hr.seq_eq hu i hi x hx hlo]
      exact hhi.trans (hr.pos_le hu i hi)
  have hfree : u < N → s.freed u < s.pos u u → s'.freed u < s'.pos u u := by
    intro hu hlt
    rw [hfreed]
    exact lt_of_lt_of_le hlt (hr.pos_le hu u hu)
  cases pc with
  | returned => exact Queue.stable hr h
  | deferTail p head | deferPost head =>
    rw [Local, hr.head_eq]
    exact ⟨h.1, h.2.1.stable hr, h.2.2⟩
  | deferIndex p =>
    rw [Local, hput, hfreed]
    exact ⟨h.1, h.2.1.stable hr, h.2.2⟩
  | deferStore p i =>
    rw [Local, hput, hfreed]
    exact ⟨h.1, h.2.1.stable hr, h.2.2⟩
  | deferBump p =>
    rw [Local, hput, hfreed, hr.x_eq]
    exact ⟨h.1, h.2.1.stable hr, h.2.2⟩
  | updateTest i | updateLast i v | updateLoad i => exact ⟨h.1, h.2.1.stable hr, h.2.2⟩
  | updateRecord i x | updatePost i x => exact hpost i x h
  | freeTest tail =>
    rw [Local, hr.tail_eq]
    exact ⟨h.1, h.2.1.stable hr, h.2.2⟩
  | freeIndex => exact ⟨h.1, h.2.1.stable hr, hfree h.1 h.2.2⟩
  | freeLoad i =>
    refine ⟨h.1, h.2.1.stable hr, hfree h.1 h.2.2.1, ?_⟩
    rw [hfreed]
    exact h.2.2.2
  | freeCall p =>
    refine ⟨h.1, h.2.1.stable hr, hfree h.1 h.2.2.1, ?_⟩
    rw [hfreed, hr.puts_eq]
    exact h.2.2.2
  | freeBump => exact ⟨h.1, h.2.stable hr⟩
  | deferHead | deferCount | deferTest | deferPostLoad | deferRecordLoad | deferRecord | freeTail =>
    exact ⟨h.1, h.2.stable hr⟩

end Invariant

/-! ## One lemma per shared update -/

section Updates

variable {N t : ℕ} {s : Ring}

/-- No step is no matter to anybody. -/
theorem Rely.refl (N u : ℕ) (s : Ring) : Rely N u s s :=
  ⟨rfl, rfl, rfl, rfl, rfl, fun _ => rfl, fun _ _ _ => le_rfl, fun _ _ _ _ _ _ => rfl⟩

/-- Only the successor of thread `t` is written by it. -/
theorem nextIndex_ne {u : ℕ} (ht : t < N) (hu : u < N) (hne : u ≠ t) :
    nextIndex N u ≠ nextIndex N t := by
  rw [nextIndex_eq ht, nextIndex_eq hu]
  split_ifs <;> omega

/-- The word that was stored. -/
@[simp] theorem set_self (a : ℕ → ℕ → ℕ) (j i v : ℕ) : set a j i v j i = v := by
  simp [set]

/-- The other words are as they were. -/
theorem set_of_ne {a : ℕ → ℕ → ℕ} {j i v j' i' : ℕ} (h : ¬ (j' = j ∧ i' = i)) :
    set a j i v j' i' = a j' i' := by
  unfold set
  by_cases hj : j' = j
  · subst hj
    rw [Function.update_self, Function.update_of_ne fun hi => h ⟨rfl, hi⟩]
  · rw [Function.update_of_ne hj]

/-- So are the rows of the others. -/
theorem set_row_of_ne {a : ℕ → ℕ → ℕ} {j i v j' : ℕ} (h : j' ≠ j) : set a j i v j' = a j' :=
  Function.update_of_ne h _ _

/-- An entry of the history that is no free leaves all positions alone. -/
theorem Shared.log_append (h : Shared N s) {x : Act} (hx : ∀ u p, x ≠ .free u p) :
    Shared N { s with log := s.log ++ [x] } := by
  have hf : ∀ i, frees i (s.log ++ [x]) = frees i s.log := by
    intro i
    cases x with
    | free u p => exact absurd rfl (hx u p)
    | put u p => simp
    | update u => simp
  have hpos : ∀ j i, Ring.pos { s with log := s.log ++ [x] } j i = s.pos j i := by
    intro j i
    simp only [Ring.pos, Ring.freed, hf]
  have hput : ∀ i, s.put i ≤ Ring.put { s with log := s.log ++ [x] } i := by
    intro i
    simp only [Ring.put, puts_append, List.length_append]
    exact Nat.le_add_right _ _
  refine ⟨h.word, fun i j hi hj => ?_, fun i j hi hj hne => ?_, fun i j hi hj k hk m hm hd => ?_,
    h.grace.append fun u p hup => absurd hup (hx u p)⟩
  · rw [hpos]
    exact (h.queued i j hi hj).trans (hput i)
  · rw [hpos, hpos]
    exact h.descending i j hi hj hne
  · rw [hpos] at hk
    have hlt : k < (puts i s.log).length := lt_of_lt_of_le hk (h.queued i j hi hj)
    simp only
    rw [afterPut_append i hlt]
    exact List.mem_append_left _ (h.covered i j hi hj k hk m hm hd)

/-- A step inside `rcu_update` is recorded. -/
theorem Shared.tick (h : Shared N s) (t : ℕ) : Shared N (s.tick t) :=
  h.log_append fun _ _ => Act.noConfusion

/-- A step of `rcu_update` that stores nothing. -/
theorem Rely.tick (N t u : ℕ) (s : Ring) : Rely N u s (s.tick t) := by
  have hf : ∀ i, (s.tick t).freed i = s.freed i := fun i => by
    simp [Ring.freed, Ring.tick]
  refine ⟨rfl, rfl, rfl, by simp [Ring.tick], by simp [Ring.tick], fun _ => rfl,
    fun _ i _ => ?_, fun _ i _ v _ _ => ?_⟩
  · rw [Ring.pos, Ring.pos, hf]
    exact le_rfl
  · rw [hf]

/-- A larger position, written by thread `t` to its successor.  `hcov` says that
`t` itself has taken a step after the pointers it covers were queued, unless they
are its own. -/
theorem Shared.post (h : Shared N s) (ht : t < N) {i v : ℕ} (hi : i < N) (hv : v < 2 ^ 32)
    (hge : s.pos (nextIndex N t) i ≤ seq (s.freed i) v)
    (hput : seq (s.freed i) v ≤ s.put i)
    (hle : t ≠ i → seq (s.freed i) v ≤ s.pos t i)
    (hcov : t ≠ i → ∀ k, k < seq (s.freed i) v → .update t ∈ afterPut i k s.log) :
    Shared N { s with rcu := set s.rcu (nextIndex N t) i v } := by
  set s' : Ring := { s with rcu := set s.rcu (nextIndex N t) i v } with hs'
  have hnew : s'.pos (nextIndex N t) i = seq (s.freed i) v := by
    simp [hs', Ring.pos, Ring.freed]
  have hold : ∀ j i', ¬ (j = nextIndex N t ∧ i' = i) → s'.pos j i' = s.pos j i' := by
    intro j i' hne
    simp only [hs', Ring.pos, Ring.freed, set_of_ne hne]
  have hgrow : ∀ j i', s.pos j i' ≤ s'.pos j i' := by
    intro j i'
    by_cases hji : j = nextIndex N t ∧ i' = i
    · obtain ⟨rfl, rfl⟩ := hji
      rw [hnew]
      exact hge
    · rw [hold j i' hji]
  refine ⟨fun i' j hi' hj => ?_, fun i' j hi' hj => ?_, fun i' j hi' hj hne => ?_,
    fun i' j hi' hj k hk m hm hd => ?_, h.grace⟩
  · by_cases hji : j = nextIndex N t ∧ i' = i
    · obtain ⟨rfl, rfl⟩ := hji
      simp only [hs', set_self]
      exact hv
    · simp only [hs', set_of_ne hji]
      exact h.word i' j hi' hj
  · by_cases hji : j = nextIndex N t ∧ i' = i
    · obtain ⟨rfl, rfl⟩ := hji
      rw [hnew]
      exact hput
    · rw [hold j i' hji]
      exact h.queued i' j hi' hj
  · by_cases hji : nextIndex N j = nextIndex N t ∧ i' = i
    · obtain ⟨hj', rfl⟩ := hji
      obtain rfl : j = t := by
        by_contra hjt
        exact nextIndex_ne ht hj hjt hj'
      rw [hnew]
      exact (hle hne).trans (hgrow j i')
    · rw [hold _ _ hji]
      exact (h.descending i' j hi' hj hne).trans (hgrow j i')
  · by_cases hji : j = nextIndex N t ∧ i' = i
    · obtain ⟨rfl, rfl⟩ := hji
      rw [hnew] at hk
      by_cases hti : t = i'
      · subst hti
        rw [dist_nextIndex_self ht] at hd
        exact absurd hd (Nat.not_lt_zero _)
      · rw [dist_nextIndex hi ht hti] at hd
        by_cases hmt : m = t
        · subst hmt
          exact hcov hti k hk
        · have hd' : dist N i' m ≠ dist N i' t := fun hmt' => hmt (dist_inj hi hm ht hmt')
          exact h.covered i' t hi' ht k (lt_of_lt_of_le hk (hle hti)) m hm (by omega)
    · rw [hold j i' hji] at hk
      exact h.covered i' j hi' hj k hk m hm hd

/-- A post to the next thread. -/
theorem Rely.post (ht : t < N) {u i v : ℕ} (hut : u ≠ t)
    (hge : s.pos (nextIndex N t) i ≤ seq (s.freed i) v) :
    Rely N u s { s with rcu := set s.rcu (nextIndex N t) i v } := by
  refine ⟨rfl, rfl, rfl, rfl, rfl, fun hu => set_row_of_ne (nextIndex_ne ht hu hut),
    fun _ i' _ => ?_, fun _ _ _ _ _ _ => rfl⟩
  by_cases hji : u = nextIndex N t ∧ i' = i
  · obtain ⟨rfl, rfl⟩ := hji
    simp only [Ring.pos, Ring.freed, set_self]
    exact hge
  · simp only [Ring.pos, Ring.freed, set_of_ne hji]
    exact le_rfl

/-- One step after the other. -/
theorem Rely.trans {u : ℕ} {s s' s'' : Ring} (h : Rely N u s s') (h' : Rely N u s' s'')
    (hs : Shared N s) : Rely N u s s'' := by
  refine ⟨h'.head_eq.trans h.head_eq, h'.tail_eq.trans h.tail_eq, h'.x_eq.trans h.x_eq,
    h'.puts_eq.trans h.puts_eq, h'.frees_eq.trans h.frees_eq,
    fun hu => (h'.posted hu).trans (h.posted hu),
    fun hu i hi => (h.pos_le hu i hi).trans (h'.pos_le hu i hi), fun hu i hi v hv hle => ?_⟩
  have hw := hs.word i _ hi (nextIndex_lt hu)
  have hpos : s'.pos (nextIndex N u) i = s.pos (nextIndex N u) i := by
    unfold Ring.pos
    rw [h.posted hu]
    exact h.seq_eq hu i hi _ hw le_rfl
  have heq := h.seq_eq hu i hi v hv hle
  rw [h'.seq_eq hu i hi v hv (by rw [hpos, heq]; exact hle), heq]

/-- Freeing the pointer at the tail of `t`'s queue, when a position ahead of it has
come back to `t`. -/
theorem Shared.free (h : Shared N s) (ht : t < N) (hlt : s.freed t < s.pos t t) {p : ℕ}
    (hp : (puts t s.log)[s.freed t]? = some p) :
    Shared N { s with log := s.log ++ [.free t p] }
      ∧ ∀ u, u ≠ t → Rely N u s { s with log := s.log ++ [.free t p] } := by
  set s' : Ring := { s with log := s.log ++ [.free t p] } with hs'
  have hself : s'.freed t = s.freed t + 1 := by simp [hs', Ring.freed]
  have hother : ∀ i, i ≠ t → s'.freed i = s.freed i := by
    intro i hi
    simp [hs', Ring.freed, frees_free_of_ne (Ne.symm hi)]
  have hputs : ∀ i, puts i s'.log = puts i s.log := fun i => by simp [hs']
  -- every position of `t` on the ring lies ahead of the freed pointer
  have hahead : ∀ j, j < N → s.freed t < s.pos j t := fun j hj =>
    lt_of_lt_of_le hlt (h.pos_self_le ht j hj)
  have hseq : ∀ i v, v < 2 ^ 32 → (i = t → s.freed t < seq (s.freed t) v) →
      seq (s'.freed i) v = seq (s.freed i) v := by
    intro i v hv hi
    by_cases hit : i = t
    · subst hit
      rw [hself]
      exact seq_succ hv (hi rfl)
    · rw [hother i hit]
  have hpos : ∀ i j, i < N → j < N → s'.pos j i = s.pos j i := by
    intro i j hi hj
    refine hseq i _ (h.word i j hi hj) ?_
    rintro rfl
    exact hahead j hj
  refine ⟨⟨h.word, fun i j hi hj => ?_, fun i j hi hj hne => ?_,
    fun i j hi hj k hk m hm hd => ?_, h.grace.append ?_⟩, fun u hu => ?_⟩
  · rw [hpos i j hi hj, Ring.put, hputs]
    exact h.queued i j hi hj
  · rw [hpos i j hi hj, hpos i _ hi (nextIndex_lt hj)]
    exact h.descending i j hi hj hne
  · rw [hpos i j hi hj] at hk
    rw [hs', afterPut_append i (lt_of_lt_of_le hk (h.queued i j hi hj))]
    exact List.mem_append_left _ (h.covered i j hi hj k hk m hm hd)
  · rintro t' p' heq
    cases heq
    obtain ⟨a, ha, hk⟩ := exists_split_afterPut t hp
    refine ⟨a, afterPut t (s.freed t) s.log, ha, hk, fun j hj hjt => ?_⟩
    exact h.covered t t ht ht _ hlt j hj (dist_lt_dist_self ht hj hjt)
  · refine ⟨rfl, rfl, rfl, hputs u, ?_, fun _ => rfl, fun hu' i hi => ?_,
      fun hu' i hi v hv hle => ?_⟩
    · simp [hs', frees_free_of_ne (Ne.symm hu)]
    · rw [hpos i u hi hu']
    · refine hseq i v hv ?_
      rintro rfl
      exact lt_of_lt_of_le (hahead _ (nextIndex_lt hu')) hle

end Updates

/-! ## Rely-guarantee -/

section Guarantee

variable {N t : ℕ} {s : Ring}

/-- The loop head of `rcu_update` only looks at other threads. -/
theorem local_updateFrom (ht : t < N) (hq : Queue s t 0) (i : ℕ) :
    Local N t s (updateFrom N t i) := by
  unfold updateFrom
  by_cases hi : i = t
  · simp only [hi, if_true]
    split
    · exact ⟨ht, hq, by assumption, by omega⟩
    · exact ⟨ht, hq⟩
  · simp only [if_neg hi]
    split
    · exact ⟨ht, hq, by assumption, hi⟩
    · exact ⟨ht, hq⟩

/-- The queue does not see a step recorded in the history. -/
theorem Queue.tick {lag : ℕ} (h : Queue s t lag) : Queue (s.tick t) t lag := by
  obtain ⟨h₁, h₂, h₃, h₄, h₅, h₆⟩ := h
  refine ⟨?_, ?_, h₃, ?_, ?_, ?_⟩ <;> simp only [Ring.put, Ring.freed, Ring.tick, puts_append,
    puts_update, frees_append, frees_update, List.append_nil] at *
  all_goals assumption

/-- The steps that leave the shared state alone, up to the history. -/
theorem guarantee_tick (hs : Shared N s) {pc' : Pc} (hl : Local N t (s.tick t) pc') :
    Shared N (s.tick t) ∧ Local N t (s.tick t) pc' ∧ ∀ u, u ≠ t → Rely N u s (s.tick t) :=
  ⟨hs.tick t, hl, fun u _ => Rely.tick N t u s⟩

/-- Queueing a pointer. -/
theorem guarantee_put (hs : Shared N s) (ht : t < N) (hq : Queue s t 0) {p : ℕ}
    (hroom : s.put t + 1 < s.freed t + queueSize) (hx : s.x t (s.put t % queueSize) = p) :
    let s' : Ring := { s with head := Function.update s.head t ((s.head t + 1) % 2 ^ 32),
                              log := s.log ++ [.put t p] }
    Shared N s' ∧ Local N t s' .deferCount ∧ ∀ u, u ≠ t → Rely N u s s' := by
  intro s'
  have hput : s'.put t = s.put t + 1 := by simp [s', Ring.put]
  have hfreed : ∀ i, s'.freed i = s.freed i := fun i => by simp [s', Ring.freed]
  have hshared : Shared N { s with log := s.log ++ [.put t p] } :=
    hs.log_append fun _ _ => Act.noConfusion
  refine ⟨⟨hshared.1, hshared.2, hshared.3, hshared.4, hshared.5⟩, ⟨ht, ?_⟩, fun u hu => ?_⟩
  · refine ⟨?_, ?_, hq.tail_lt, ?_, ?_, fun k hk hk' => ?_⟩
    · rw [hput]
      simp only [s', Function.update_self, hq.head_eq]
      omega
    · rw [hfreed]
      exact hq.tail_eq
    · rw [hput, hfreed]
      have := hq.freed_le
      omega
    · rw [hput, hfreed]
      exact hroom
    · rw [hput] at hk'
      rw [hfreed] at hk
      simp only [s', puts_append, puts_put_self]
      rcases Nat.lt_succ_iff_lt_or_eq.mp hk' with hlt | rfl
      · rw [List.getElem?_append_left hlt]
        exact hq.slots k hk hlt
      · rw [hx]
        exact List.getElem?_concat_length
  · refine ⟨?_, rfl, rfl, ?_, by simp [s'], fun _ => rfl, fun _ i _ => ?_, fun _ i _ v _ _ => ?_⟩
    · simp only [s', Function.update_of_ne hu]
    · simp only [s', puts_append, puts_put_of_ne (Ne.symm hu), List.append_nil]
    · rw [Ring.pos, Ring.pos, hfreed]
    · rw [hfreed]

/-- A call begins. -/
theorem guarantee_returned {pc' : Pc} {c : Cmd} {s' : Ring} (hs : Shared N s)
    (hl : Local N t s .returned) (hstep : step N t s .returned c = some (s', pc')) :
    Shared N s' ∧ Local N t s' pc' ∧ ∀ u, u ≠ t → Rely N u s s' := by
  cases c <;> simp only [step, reduceCtorEq, Option.ite_none_right_eq_some] at hstep
  · obtain ⟨⟨ht, -⟩, heq⟩ := hstep
    cases heq
    exact ⟨hs, ⟨ht, hl⟩, fun u _ => Rely.refl N u s⟩
  · obtain ⟨ht, heq⟩ := hstep
    cases heq
    exact ⟨hs, local_updateFrom ht hl 0, fun u _ => Rely.refl N u s⟩

/-- The assertion that the queue is not full. -/
theorem guarantee_deferTail {p head : ℕ} {pc' : Pc} {c : Cmd} {s' : Ring} (hs : Shared N s)
    (hl : Local N t s (.deferTail p head))
    (hstep : step N t s (.deferTail p head) c = some (s', pc')) :
    Shared N s' ∧ Local N t s' pc' ∧ ∀ u, u ≠ t → Rely N u s s' := by
  obtain ⟨ht, hq, rfl⟩ := hl
  cases c <;> simp only [step, reduceCtorEq, Option.ite_none_right_eq_some] at hstep
  obtain ⟨hne, heq⟩ := hstep
  cases heq
  refine ⟨hs, ⟨ht, hq, ?_⟩, fun u _ => Rely.refl N u s⟩
  -- the assertion compares the positions modulo the queue size
  have h₁ := hq.head_eq
  have h₂ := hq.tail_eq
  have h₃ := hq.room
  have h₄ := hq.freed_le
  have h₅ := hq.tail_lt
  simp only [queueSize] at h₃ hne ⊢
  omega

/-- The slot for the pointer. -/
theorem guarantee_deferIndex {p : ℕ} {pc' : Pc} {c : Cmd} {s' : Ring} (hs : Shared N s)
    (hl : Local N t s (.deferIndex p)) (hstep : step N t s (.deferIndex p) c = some (s', pc')) :
    Shared N s' ∧ Local N t s' pc' ∧ ∀ u, u ≠ t → Rely N u s s' := by
  obtain ⟨ht, hq, hroom⟩ := hl
  cases c <;> cases hstep
  refine ⟨hs, ⟨ht, hq, hroom, ?_⟩, fun u _ => Rely.refl N u s⟩
  rw [hq.head_eq, queueSize]
  omega

/-- The pointer is stored in its slot. -/
theorem guarantee_deferStore {p i : ℕ} {pc' : Pc} {c : Cmd} {s' : Ring} (hs : Shared N s)
    (hl : Local N t s (.deferStore p i)) (hstep : step N t s (.deferStore p i) c = some (s', pc')) :
    Shared N s' ∧ Local N t s' pc' ∧ ∀ u, u ≠ t → Rely N u s s' := by
  obtain ⟨ht, hq, hroom, rfl⟩ := hl
  cases c <;> cases hstep
  refine ⟨⟨hs.1, hs.2, hs.3, hs.4, hs.5⟩, ⟨ht, ?_, hroom, ?_⟩, fun u hu => ?_⟩
  · refine ⟨hq.head_eq, hq.tail_eq, hq.tail_lt, hq.freed_le, hq.room, fun k hk hk' => ?_⟩
    -- the new slot is not one of those in use
    have hne : k % queueSize ≠ s.put t % queueSize := by
      have h₁ : k < s.put t := hk'
      have h₂ : s.freed t ≤ k := hk
      simp only [queueSize] at hroom ⊢
      omega
    simp only
    rw [set_of_ne fun h => hne h.2]
    exact hq.slots k hk hk'
  · simp only [Ring.put, set_self]
  · refine ⟨rfl, rfl, ?_, rfl, rfl, fun _ => rfl, fun _ _ _ => le_rfl, fun _ _ _ _ _ _ => rfl⟩
    exact set_row_of_ne hu

/-- Is it time to pass the head on? -/
theorem guarantee_deferTest {head : ℕ} {pc' : Pc} {c : Cmd} {s' : Ring} (hs : Shared N s)
    (hl : Local N t s (.deferTest head)) (hstep : step N t s (.deferTest head) c = some (s', pc')) :
    Shared N s' ∧ Local N t s' pc' ∧ ∀ u, u ≠ t → Rely N u s s' := by
  cases c <;> simp only [step, reduceCtorEq] at hstep
  split at hstep <;> cases hstep
  · exact ⟨hs, hl, fun u _ => Rely.refl N u s⟩
  · exact ⟨hs, hl.2, fun u _ => Rely.refl N u s⟩

/-- The head is posted to the next thread. -/
theorem guarantee_deferPost {head : ℕ} {pc' : Pc} {c : Cmd} {s' : Ring} (hs : Shared N s)
    (hl : Local N t s (.deferPost head)) (hstep : step N t s (.deferPost head) c = some (s', pc')) :
    Shared N s' ∧ Local N t s' pc' ∧ ∀ u, u ≠ t → Rely N u s s' := by
  obtain ⟨ht, hq, rfl⟩ := hl
  cases c <;> cases hstep
  -- the posted position is exactly the number of pointers queued
  have hseq : seq (s.freed t) (s.head t) = s.put t := by
    rw [hq.head_eq]
    have := hq.room
    simp only [queueSize] at this
    exact seq_mod hq.freed_le (by omega)
  have hge : s.pos (nextIndex N t) t ≤ seq (s.freed t) (s.head t) := by
    rw [hseq]
    exact hs.queued t _ ht (nextIndex_lt ht)
  refine ⟨hs.post ht ht ?_ hge hseq.le (fun h => absurd rfl h) (fun h => absurd rfl h),
    ⟨ht, ⟨hq.1, hq.2, hq.3, hq.4, hq.5, hq.6⟩⟩, fun u hu => Rely.post ht hu hge⟩
  rw [hq.head_eq]
  exact Nat.mod_lt _ (by decide)

/-- The posted head is recorded. -/
theorem guarantee_deferRecord {head : ℕ} {pc' : Pc} {c : Cmd} {s' : Ring} (hs : Shared N s)
    (hl : Local N t s (.deferRecord head))
    (hstep : step N t s (.deferRecord head) c = some (s', pc')) :
    Shared N s' ∧ Local N t s' pc' ∧ ∀ u, u ≠ t → Rely N u s s' := by
  obtain ⟨ht, hq⟩ := hl
  cases c <;> cases hstep
  exact ⟨⟨hs.1, hs.2, hs.3, hs.4, hs.5⟩, ⟨hq.1, hq.2, hq.3, hq.4, hq.5, hq.6⟩,
    fun u _ => ⟨rfl, rfl, rfl, rfl, rfl, fun _ => rfl, fun _ _ _ => le_rfl,
      fun _ _ _ _ _ _ => rfl⟩⟩

/-- Was this position passed on before? -/
theorem guarantee_updateLast {i v : ℕ} {pc' : Pc} {c : Cmd} {s' : Ring} (hs : Shared N s)
    (hl : Local N t s (.updateLast i v)) (hstep : step N t s (.updateLast i v) c = some (s', pc')) :
    Shared N s' ∧ Local N t s' pc' ∧ ∀ u, u ≠ t → Rely N u s s' := by
  obtain ⟨ht, hq, hi⟩ := hl
  cases c <;> simp only [step, reduceCtorEq] at hstep
  split at hstep <;> cases hstep
  · exact guarantee_tick hs (local_updateFrom ht hq.tick (i + 1))
  · exact guarantee_tick hs ⟨ht, hq.tick, hi⟩

/-- `rcu_update` loads the position to pass on. -/
theorem guarantee_updateLoad {i : ℕ} {pc' : Pc} {c : Cmd} {s' : Ring} (hs : Shared N s)
    (hl : Local N t s (.updateLoad i)) (hstep : step N t s (.updateLoad i) c = some (s', pc')) :
    Shared N s' ∧ Local N t s' pc' ∧ ∀ u, u ≠ t → Rely N u s s' := by
  obtain ⟨ht, hq, hi, hne⟩ := hl
  cases c <;> cases hstep
  refine guarantee_tick hs ?_
  have hf : ∀ i, (s.tick t).freed i = s.freed i := fun i => by simp [Ring.freed, Ring.tick]
  refine ⟨ht, hq.tick, hi, hne, hs.word i t hi ht, ?_, le_rfl⟩
  rw [Ring.pos, hf]
  exact hs.descending i t hi ht hne.symm

/-- The position is recorded as passed on. -/
theorem guarantee_updateRecord {i x : ℕ} {pc' : Pc} {c : Cmd} {s' : Ring} (hs : Shared N s)
    (hl : Local N t s (.updateRecord i x))
    (hstep : step N t s (.updateRecord i x) c = some (s', pc')) :
    Shared N s' ∧ Local N t s' pc' ∧ ∀ u, u ≠ t → Rely N u s s' := by
  obtain ⟨ht, hq, hi, hne, hx, hlo, hhi⟩ := hl
  cases c <;> cases hstep
  have hf : ∀ i, (s.tick t).freed i = s.freed i := fun i => by simp [Ring.freed, Ring.tick]
  have hl' : Local N t (s.tick t) (.updatePost i x) :=
    ⟨ht, hq.tick, hi, hne, hx, by rw [Ring.pos, hf]; exact hlo, by rw [Ring.pos, hf]; exact hhi⟩
  obtain ⟨⟨h₁, h₂, h₃, h₄, h₅⟩, ⟨k₁, ⟨q₁, q₂, q₃, q₄, q₅, q₆⟩, k₂⟩, hr⟩ := guarantee_tick hs hl'
  refine ⟨⟨h₁, h₂, h₃, h₄, h₅⟩, ⟨k₁, ⟨q₁, q₂, q₃, q₄, q₅, q₆⟩, k₂⟩, fun u hu => ?_⟩
  obtain ⟨r₁, r₂, r₃, r₄, r₅, r₆, r₇, r₈⟩ := hr u hu
  exact ⟨r₁, r₂, r₃, r₄, r₅, r₆, r₇, r₈⟩

/-- The position is posted to the next thread. -/
theorem guarantee_updatePost {i x : ℕ} {pc' : Pc} {c : Cmd} {s' : Ring} (hs : Shared N s)
    (hl : Local N t s (.updatePost i x)) (hstep : step N t s (.updatePost i x) c = some (s', pc')) :
    Shared N s' ∧ Local N t s' pc' ∧ ∀ u, u ≠ t → Rely N u s s' := by
  obtain ⟨ht, hq, hi, hne, hx, hlo, hhi⟩ := hl
  cases c <;> cases hstep
  -- the step is first recorded, then covers what it passes on
  have hs₁ := hs.tick t
  have hf : ∀ i, (s.tick t).freed i = s.freed i := fun i => by simp [Ring.freed, Ring.tick]
  have hput : (s.tick t).put i = s.put i := by simp [Ring.put, Ring.tick]
  have hlo₁ : (s.tick t).pos (nextIndex N t) i ≤ seq ((s.tick t).freed i) x := by
    rw [Ring.pos, hf]
    exact hlo
  have hle := hhi.trans (hs.queued i t hi ht)
  have hs₂ := hs₁.post ht hi hx hlo₁ (by rw [hf, hput]; exact hle)
    (fun _ => by rw [Ring.pos, hf]; exact hhi)
    (fun _ k hk => by
      rw [hf] at hk
      rw [Ring.tick, afterPut_append i (lt_of_lt_of_le hk hle)]
      exact List.mem_append_right _ (List.mem_singleton.mpr rfl))
  have hq₁ := hq.tick
  have hq₂ : Queue ({ s with rcu := set s.rcu (nextIndex N t) i x }.tick t) t 0 :=
    ⟨hq₁.1, hq₁.2, hq₁.3, hq₁.4, hq₁.5, hq₁.6⟩
  refine ⟨hs₂, local_updateFrom ht hq₂ (i + 1), fun u hu => ?_⟩
  exact (Rely.tick N t u s).trans (Rely.post ht hu hlo₁) hs

/-- Has everything that came round been freed? -/
theorem guarantee_freeTest {tail : ℕ} {pc' : Pc} {c : Cmd} {s' : Ring} (hs : Shared N s)
    (hl : Local N t s (.freeTest tail)) (hstep : step N t s (.freeTest tail) c = some (s', pc')) :
    Shared N s' ∧ Local N t s' pc' ∧ ∀ u, u ≠ t → Rely N u s s' := by
  obtain ⟨ht, hq, rfl⟩ := hl
  cases c <;> simp only [step, reduceCtorEq] at hstep
  split at hstep <;> cases hstep
  · rename_i hne
    refine guarantee_tick hs ⟨ht, hq.tick, ?_⟩
    have hf : (s.tick t).freed t = s.freed t := by simp [Ring.freed, Ring.tick]
    rw [Ring.pos, hf]
    refine lt_of_le_of_ne (le_seq _ _) fun heq => hne ?_
    have hw := seq_mod_self (f := s.freed t) (hs.word t t ht ht)
    have htail := hq.tail_eq
    have hlt := hq.tail_lt
    change s.freed t = seq (s.freed t) (s.rcu t t) at heq
    rw [← heq] at hw
    omega
  · exact guarantee_tick hs hq.tick

/-- The slot of the next pointer to free. -/
theorem guarantee_freeIndex {pc' : Pc} {c : Cmd} {s' : Ring} (hs : Shared N s)
    (hl : Local N t s .freeIndex) (hstep : step N t s .freeIndex c = some (s', pc')) :
    Shared N s' ∧ Local N t s' pc' ∧ ∀ u, u ≠ t → Rely N u s s' := by
  obtain ⟨ht, hq, hlt⟩ := hl
  cases c <;> cases hstep
  have hf : (s.tick t).freed t = s.freed t := by simp [Ring.freed, Ring.tick]
  refine guarantee_tick hs ⟨ht, hq.tick, ?_, ?_⟩
  · rw [Ring.pos, hf]
    exact hlt
  · rw [hf]
    have htail := hq.tail_eq
    have hlt := hq.tail_lt
    simp only [queueSize]
    omega

/-- The pointer is loaded from its slot. -/
theorem guarantee_freeLoad {i : ℕ} {pc' : Pc} {c : Cmd} {s' : Ring} (hs : Shared N s)
    (hl : Local N t s (.freeLoad i)) (hstep : step N t s (.freeLoad i) c = some (s', pc')) :
    Shared N s' ∧ Local N t s' pc' ∧ ∀ u, u ≠ t → Rely N u s s' := by
  obtain ⟨ht, hq, hlt, rfl⟩ := hl
  cases c <;> cases hstep
  have hf : (s.tick t).freed t = s.freed t := by simp [Ring.freed, Ring.tick]
  refine guarantee_tick hs ⟨ht, hq.tick, ?_, ?_⟩
  · rw [Ring.pos, hf]
    exact hlt
  · rw [hf]
    simp only [Ring.tick, puts_append, puts_update, List.append_nil]
    exact hq.slots _ le_rfl (lt_of_lt_of_le hlt (hs.queued t t ht ht))

/-- The pointer is freed. -/
theorem guarantee_freeCall {p : ℕ} {pc' : Pc} {c : Cmd} {s' : Ring} (hs : Shared N s)
    (hl : Local N t s (.freeCall p)) (hstep : step N t s (.freeCall p) c = some (s', pc')) :
    Shared N s' ∧ Local N t s' pc' ∧ ∀ u, u ≠ t → Rely N u s s' := by
  obtain ⟨ht, hq, hlt, hp⟩ := hl
  cases c <;> cases hstep
  obtain ⟨hs', hr⟩ := hs.free ht hlt hp
  have hput := lt_of_lt_of_le hlt (hs.queued t t ht ht)
  refine ⟨hs', ⟨ht, ?_⟩, hr⟩
  have hfreed : Ring.freed { s with log := s.log ++ [.free t p] } t = s.freed t + 1 := by
    simp [Ring.freed]
  have hputs : puts t (s.log ++ [.free t p]) = puts t s.log := by simp
  refine ⟨?_, ?_, hq.tail_lt, ?_, ?_, fun k hk hk' => ?_⟩
  · rw [Ring.put, hputs]
    exact hq.head_eq
  · rw [hfreed]
    have := hq.tail_eq
    simp only
    omega
  · rw [Ring.put, hputs, hfreed]
    exact hput
  · rw [Ring.put, hputs, hfreed]
    have : s.put t < s.freed t + queueSize := hq.room
    rw [Ring.put] at this
    omega
  · rw [hfreed] at hk
    rw [Ring.put, hputs] at hk'
    simp only
    rw [hputs]
    exact hq.slots k (by omega) hk'

/-- The tail moves on. -/
theorem guarantee_freeBump {pc' : Pc} {c : Cmd} {s' : Ring} (hs : Shared N s)
    (hl : Local N t s .freeBump) (hstep : step N t s .freeBump c = some (s', pc')) :
    Shared N s' ∧ Local N t s' pc' ∧ ∀ u, u ≠ t → Rely N u s s' := by
  obtain ⟨ht, hq⟩ := hl
  cases c <;> cases hstep
  have hs₁ := hs.tick t
  have hq₁ := hq.tick
  refine ⟨⟨hs₁.1, hs₁.2, hs₁.3, hs₁.4, hs₁.5⟩,
    ⟨ht, hq₁.1, ?_, ?_, hq₁.4, hq₁.5, hq₁.6⟩, fun u hu => ?_⟩
  · have := hq₁.tail_eq
    change (s.tail t + 1) % 2 ^ 32 = (s.tick t).freed t % 2 ^ 32 at this
    change (Function.update s.tail t ((s.tail t + 1) % 2 ^ 32) t + 0) % 2 ^ 32
      = (s.tick t).freed t % 2 ^ 32
    rw [Function.update_self]
    omega
  · simp only [Ring.tick, Function.update_self]
    exact Nat.mod_lt _ (by decide)
  · obtain ⟨r₁, r₂, r₃, r₄, r₅, r₆, r₇, r₈⟩ := Rely.tick N t u s
    refine ⟨r₁, ?_, r₃, r₄, r₅, r₆, r₇, r₈⟩
    simp only [Ring.tick, Function.update_of_ne hu]

/-- The guarantee, by program counter. -/
theorem step_guarantee {pc pc' : Pc} {c : Cmd} {s' : Ring} (hs : Shared N s)
    (hl : Local N t s pc) (hstep : step N t s pc c = some (s', pc')) :
    Shared N s' ∧ Local N t s' pc' ∧ ∀ u, u ≠ t → Rely N u s s' := by
  cases pc with
  | returned => exact guarantee_returned hs hl hstep
  | deferHead p =>
    cases c <;> cases hstep
    exact ⟨hs, ⟨hl.1, hl.2, rfl⟩, fun u _ => Rely.refl N u s⟩
  | deferTail p head => exact guarantee_deferTail hs hl hstep
  | deferIndex p => exact guarantee_deferIndex hs hl hstep
  | deferStore p i => exact guarantee_deferStore hs hl hstep
  | deferBump p =>
    obtain ⟨ht, hq, hroom, hx⟩ := hl
    cases c <;> cases hstep
    exact guarantee_put hs ht hq hroom hx
  | deferCount =>
    cases c <;> cases hstep
    exact ⟨hs, hl, fun u _ => Rely.refl N u s⟩
  | deferTest head => exact guarantee_deferTest hs hl hstep
  | deferPostLoad =>
    cases c <;> cases hstep
    exact ⟨hs, ⟨hl.1, hl.2, rfl⟩, fun u _ => Rely.refl N u s⟩
  | deferPost head => exact guarantee_deferPost hs hl hstep
  | deferRecordLoad =>
    cases c <;> cases hstep
    exact ⟨hs, hl, fun u _ => Rely.refl N u s⟩
  | deferRecord head => exact guarantee_deferRecord hs hl hstep
  | updateTest i =>
    obtain ⟨ht, hq, hi⟩ := hl
    cases c <;> cases hstep
    exact guarantee_tick hs ⟨ht, hq.tick, hi⟩
  | updateLast i v => exact guarantee_updateLast hs hl hstep
  | updateLoad i => exact guarantee_updateLoad hs hl hstep
  | updateRecord i x => exact guarantee_updateRecord hs hl hstep
  | updatePost i x => exact guarantee_updatePost hs hl hstep
  | freeTail =>
    obtain ⟨ht, hq⟩ := hl
    cases c <;> cases hstep
    exact guarantee_tick hs ⟨ht, hq.tick, rfl⟩
  | freeTest tail => exact guarantee_freeTest hs hl hstep
  | freeIndex => exact guarantee_freeIndex hs hl hstep
  | freeLoad i => exact guarantee_freeLoad hs hl hstep
  | freeCall p => exact guarantee_freeCall hs hl hstep
  | freeBump => exact guarantee_freeBump hs hl hstep

end Guarantee

/-- **Every thread keeps what the others rely on.** -/
theorem relyGuarantee (N : ℕ) :
    RelyGuarantee (step N) (fun _ _ _ _ => True) (Shared N) (Local N) (Rely N) where
  guarantee := fun _ _ _ _ _ _ hs hl _ hstep => step_guarantee hs hl hstep
  stable := fun _ _ _ _ hs hr hl => Local.stable hs hr hl

/-- It holds at the start. -/
theorem init_holds (N : ℕ) (junk : ℕ → ℕ → ℕ) : (init junk).Holds (Shared N) (Local N) := by
  have hpos : ∀ j i, (init junk).shared.pos j i = 0 := fun _ _ => by
    change seq 0 0 = 0
    decide
  refine ⟨⟨fun _ _ _ _ => ?_, fun _ _ _ _ => ?_, fun _ _ _ _ _ => ?_,
    fun i j _ _ k hk => ?_, fun l r t p h => ?_⟩, fun t => ⟨rfl, rfl, ?_, le_rfl, ?_, ?_⟩⟩
  · change 0 < 2 ^ 32
    decide
  · rw [hpos]
    exact Nat.zero_le _
  · rw [hpos, hpos]
  · rw [hpos] at hk
    exact absurd hk (Nat.not_lt_zero k)
  · change [] = _ at h
    simp at h
  · change 0 < 2 ^ 32
    decide
  · change 0 < 0 + queueSize
    decide
  · intro k _ hk
    exact absurd hk (Nat.not_lt_zero k)

/-- **The RCU grace period.**  For any number `N` of initialised threads, any
interleaving of `rcu_defer_free` and `rcu_update` and a run of any length: when
thread `t` frees a pointer, every other thread has taken a step of an
`rcu_update` of its own since `t` queued that pointer. -/
theorem rcu_grace_period (N : ℕ) (junk : ℕ → ℕ → ℕ) (es : List (ℕ × Cmd)) (c : Conf Ring Pc)
    (hrun : run (sys N) (init junk) es = some c) : GracePeriod N c.shared.log :=
  ((relyGuarantee N).holds_run (init_holds N junk)
    (stepsMeet_of_forall (fun _ _ => trivial) _ _) hrun).1.grace

/-- Thread 0 queues ten pointers, which makes it post; thread 1 passes the position
back; thread 0 frees the first pointer. -/
def postAndFreeRun : List (ℕ × Cmd) :=
  (List.range 9).flatMap (fun p => (0, Cmd.deferFree (p + 1)) :: List.replicate 7 (0, Cmd.resume))
    ++ (0, Cmd.deferFree 10) :: List.replicate 11 (0, Cmd.resume)
    ++ (1, Cmd.update) :: List.replicate 7 (1, Cmd.resume)
    ++ (0, Cmd.update) :: List.replicate 7 (0, Cmd.resume)

/-- Two threads, one pointer that comes round and is freed. -/
theorem rcu_grace_period_two_threads :
    ∃ c, run (sys 2) (init fun _ _ => 0) postAndFreeRun = some c
      ∧ frees 0 c.shared.log = [1] ∧ GracePeriod 2 c.shared.log := by
  have h : (run (sys 2) (init fun _ _ => 0) postAndFreeRun).map (fun c => frees 0 c.shared.log)
      = some [1] := by decide
  obtain ⟨c, hc, hf⟩ := Option.map_eq_some_iff.mp h
  exact ⟨c, hc, hf, rcu_grace_period 2 _ postAndFreeRun c hc⟩

end Rcu
