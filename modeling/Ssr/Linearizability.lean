/-
# Linearizability

Histories of calls and returns, and what it means that a history is that of a
sequential object.

* `Spec` — a sequential object; `Spec.run` — a sequence of calls with their answers;
* `Event`, `Before` — histories and their order;
* `Linearizes` — an order of the calls explains a history;
* `Tracks` — the invariant of a system that decides its calls one after another.

Nothing here refers to a particular program.
-/
import Mathlib.Data.List.Nodup
import Mathlib.Tactic

namespace Linearizability

variable {ι ω ρ σ : Type*}

/-! ## Sequential objects -/

/-- A sequential object: its initial state, and the answer and the state after a call. -/
structure Spec (ω ρ σ : Type*) where
  init : σ
  apply : σ → ω → ρ × σ

/-- The state after a sequence of calls, if the answers are those of the object. -/
def Spec.run [DecidableEq ρ] (S : Spec ω ρ σ) : σ → List (ι × ω × ρ) → Option σ
  | s, [] => some s
  | s, (_, o, r) :: log => if (S.apply s o).1 = r then S.run (S.apply s o).2 log else none

section Run

variable [DecidableEq ρ] {S : Spec ω ρ σ} {s s' : σ}

theorem Spec.run_append (log log' : List (ι × ω × ρ)) :
    S.run s (log ++ log') = (S.run s log).bind fun s' => S.run s' log' := by
  induction log generalizing s with
  | nil => rfl
  | cons e log ih =>
    obtain ⟨i, o, r⟩ := e
    simp only [List.cons_append, Spec.run]
    split_ifs
    · exact ih
    · rfl

theorem Spec.run_concat {log : List (ι × ω × ρ)} {i : ι} {o : ω} (h : S.run s log = some s') :
    S.run s (log ++ [(i, o, (S.apply s' o).1)]) = some (S.apply s' o).2 := by
  rw [Spec.run_append, h]
  simp [Spec.run]

end Run

/-! ## Histories -/

/-- An event of a history: a call, or its return. -/
inductive Event (ι ω ρ : Type*) where
  | call (i : ι) (o : ω)
  | ret (i : ι) (r : ρ)
  deriving DecidableEq, Repr

/-- `a` stands before `b`. -/
def Before {α : Type*} (l : List α) (a b : α) : Prop := ∃ xs ys, l = xs ++ ys ∧ a ∈ xs ∧ b ∈ ys

section Before

variable {α : Type*} {l : List α} {a b c : α}

theorem Before.mem_left (h : Before l a b) : a ∈ l := by
  obtain ⟨xs, ys, rfl, ha, -⟩ := h
  exact List.mem_append_left ys ha

theorem Before.mem_right (h : Before l a b) : b ∈ l := by
  obtain ⟨xs, ys, rfl, -, hb⟩ := h
  exact List.mem_append_right xs hb

theorem Before.append (h : Before l a b) (l' : List α) : Before (l ++ l') a b := by
  obtain ⟨xs, ys, rfl, ha, hb⟩ := h
  exact ⟨xs, ys ++ l', List.append_assoc xs ys l', ha, List.mem_append_left l' hb⟩

theorem before_concat (ha : a ∈ l) : Before (l ++ [b]) a b :=
  ⟨l, [b], rfl, ha, List.mem_singleton_self b⟩

/-- What stands before what after one more element. -/
theorem before_concat_iff : Before (l ++ [c]) a b ↔ Before l a b ∨ (a ∈ l ∧ b = c) := by
  constructor
  · rintro ⟨xs, ys, hl, ha, hb⟩
    obtain rfl | ⟨ys, y, rfl⟩ := List.eq_nil_or_concat' ys
    · exact absurd hb List.not_mem_nil
    · rw [← List.append_assoc] at hl
      obtain ⟨rfl, hy⟩ := List.append_inj' hl rfl
      rcases List.mem_append.mp hb with hb | hb
      · exact Or.inl ⟨xs, ys, rfl, ha, hb⟩
      · refine Or.inr ⟨List.mem_append_left ys ha, ?_⟩
        rw [List.mem_singleton.mp hb, List.singleton_inj.mp hy]
  · rintro (h | ⟨ha, rfl⟩)
    · exact h.append [c]
    · exact before_concat ha

theorem before_total (ha : a ∈ l) (hb : b ∈ l) (hne : a ≠ b) : Before l a b ∨ Before l b a := by
  obtain ⟨xs, ys, rfl⟩ := List.append_of_mem ha
  rcases List.mem_append.mp hb with hb | hb
  · exact Or.inr ⟨xs, a :: ys, rfl, hb, List.mem_cons_self⟩
  · rcases List.mem_cons.mp hb with rfl | hb
    · exact absurd rfl hne
    · refine Or.inl ⟨xs ++ [a], ys, by simp, ?_, hb⟩
      exact List.mem_append_right xs (List.mem_singleton_self a)

theorem Before.asymm (hn : l.Nodup) (h : Before l a b) : ¬ Before l b a := by
  rintro ⟨xs', ys', hl, hb', ha'⟩
  obtain ⟨xs, ys, rfl, ha, hb⟩ := h
  have hdis := (List.nodup_append.mp hn).2.2
  rcases List.append_eq_append_iff.mp hl with ⟨zs, rfl, rfl⟩ | ⟨zs, rfl, rfl⟩
  · exact (hdis a ha a (List.mem_append_right zs ha')) rfl
  · exact (hdis b (List.mem_append_left zs hb') b hb) rfl

theorem Before.of_map {β : Type*} {l : List β} {f : β → α} (h : Before (l.map f) a b) :
    ∃ x y, f x = a ∧ f y = b ∧ Before l x y := by
  obtain ⟨xs, ys, hl, ha, hb⟩ := h
  obtain ⟨xs', ys', rfl, rfl, rfl⟩ := List.map_eq_append_iff.mp hl
  obtain ⟨x, hx, rfl⟩ := List.mem_map.mp ha
  obtain ⟨y, hy, rfl⟩ := List.mem_map.mp hb
  exact ⟨x, y, rfl, rfl, xs', ys', rfl, hx, hy⟩

/-- What stands before an element of a list without repetitions. -/
theorem Before.mem_of_split {xs ys : List α} (hn : (xs ++ b :: ys).Nodup)
    (h : Before (xs ++ b :: ys) a b) : a ∈ xs := by
  have ha := h.mem_left
  rcases List.mem_append.mp ha with ha | ha
  · exact ha
  · refine absurd ?_ (h.asymm hn)
    rcases List.mem_cons.mp ha with rfl | ha
    · exact h
    · exact ⟨xs ++ [b], ys, by simp, List.mem_append_right xs (List.mem_singleton_self b), ha⟩

theorem Before.of_split {xs ys : List α} {c : α} (hn : (xs ++ c :: ys).Nodup)
    (h : Before (xs ++ c :: ys) a b) (hb : b ∈ xs) : Before xs a b := by
  obtain ⟨us, vs, rfl⟩ := List.append_of_mem hb
  have hn' : (us ++ b :: (vs ++ c :: ys)).Nodup := by simpa using hn
  have h' : Before (us ++ b :: (vs ++ c :: ys)) a b := by simpa using h
  exact ⟨us, b :: vs, rfl, h'.mem_of_split hn', List.mem_cons_self⟩

/-- A decidable form. -/
theorem before_iff : Before l a b ↔ ∃ n ∈ List.range (l.length + 1), a ∈ l.take n ∧ b ∈ l.drop n := by
  constructor
  · rintro ⟨xs, ys, rfl, ha, hb⟩
    refine ⟨xs.length, List.mem_range.mpr ?_, ?_, ?_⟩
    · rw [List.length_append]
      omega
    · rw [List.take_left']
      · exact ha
      · rfl
    · rw [List.drop_left']
      · exact hb
      · rfl
  · rintro ⟨n, -, ha, hb⟩
    exact ⟨l.take n, l.drop n, (List.take_append_drop n l).symm, ha, hb⟩

instance [DecidableEq α] (l : List α) (a b : α) : Decidable (Before l a b) :=
  decidable_of_iff _ before_iff.symm

end Before

/-- The order `log` of the calls explains the history `h`. -/
structure Linearizes [DecidableEq ρ] (S : Spec ω ρ σ) (h : List (Event ι ω ρ))
    (log : List (ι × ω × ρ)) : Prop where
  /-- The answers are those of the sequential object. -/
  legal : (S.run S.init log).isSome
  nodup : (log.map (·.1)).Nodup
  called : ∀ i o r, (i, o, r) ∈ log → .call i o ∈ h
  /-- Every return gives the answer. -/
  answered : ∀ i r, .ret i r ∈ h → ∃ o, (i, o, r) ∈ log
  /-- A call that returned before another began comes first. -/
  ordered : ∀ i r j o, Before h (.ret i r) (.call j o) → j ∈ log.map (·.1) →
    Before (log.map (·.1)) i j

/-- **Linearizability** of a history. -/
def Linearizable [DecidableEq ρ] (S : Spec ω ρ σ) (h : List (Event ι ω ρ)) : Prop :=
  ∃ log, Linearizes S h log

/-! ## Systems that decide their calls one after another -/

/-- The order `log` of the calls decided so far in the history `h`. -/
structure Tracks (h : List (Event ι ω ρ)) (log : List (ι × ω × ρ)) : Prop where
  nodup : (log.map (·.1)).Nodup
  called : ∀ i o r, (i, o, r) ∈ log → .call i o ∈ h
  decided : ∀ i r, .ret i r ∈ h → i ∈ log.map (·.1)
  ordered : ∀ i r j o, Before h (.ret i r) (.call j o) → j ∈ log.map (·.1) →
    Before (log.map (·.1)) i j

section Tracks

variable {h : List (Event ι ω ρ)} {log : List (ι × ω × ρ)} {i : ι} {o : ω} {r : ρ}

theorem Tracks.nil : Tracks ([] : List (Event ι ω ρ)) [] := by
  refine ⟨List.nodup_nil, fun _ _ _ h => ?_, fun _ _ h => ?_, fun _ _ _ _ _ h => ?_⟩
  · exact absurd h List.not_mem_nil
  · exact absurd h List.not_mem_nil
  · exact absurd h List.not_mem_nil

theorem Tracks.call (ht : Tracks h log) (hi : i ∉ log.map (·.1)) :
    Tracks (h ++ [.call i o]) log := by
  refine ⟨ht.nodup, fun j o' r' hj => ?_, fun j r' hj => ?_, fun j r' k o' hb hk => ?_⟩
  · exact List.mem_append_left _ (ht.called j o' r' hj)
  · rcases List.mem_append.mp hj with hj | hj
    · exact ht.decided j r' hj
    · exact absurd (List.mem_singleton.mp hj) (by simp)
  · rcases before_concat_iff.mp hb with hb | ⟨-, heq⟩
    · exact ht.ordered j r' k o' hb hk
    · cases heq
      exact absurd hk hi

theorem Tracks.decide (ht : Tracks h log) (hi : i ∉ log.map (·.1)) (hc : .call i o ∈ h) :
    Tracks h (log ++ [(i, o, r)]) := by
  refine ⟨?_, fun j o' r' hj => ?_, fun j r' hj => ?_, fun j r' k o' hb hk => ?_⟩
  · rw [List.map_append]
    refine List.nodup_append.mpr ⟨ht.nodup, List.nodup_singleton _, fun a ha b hb => ?_⟩
    rw [List.mem_singleton.mp hb]
    rintro rfl
    exact hi ha
  · rcases List.mem_append.mp hj with hj | hj
    · exact ht.called j o' r' hj
    · cases List.mem_singleton.mp hj
      exact hc
  · rw [List.map_append]
    exact List.mem_append_left _ (ht.decided j r' hj)
  · rw [List.map_append] at hk ⊢
    rcases List.mem_append.mp hk with hk | hk
    · exact (ht.ordered j r' k o' hb hk).append _
    · rw [List.mem_singleton.mp hk]
      exact before_concat (ht.decided j r' hb.mem_left)

theorem Tracks.ret (ht : Tracks h log) (hi : i ∈ log.map (·.1)) : Tracks (h ++ [.ret i r]) log := by
  refine ⟨ht.nodup, fun j o' r' hj => ?_, fun j r' hj => ?_, fun j r' k o' hb hk => ?_⟩
  · exact List.mem_append_left _ (ht.called j o' r' hj)
  · rcases List.mem_append.mp hj with hj | hj
    · exact ht.decided j r' hj
    · cases List.mem_singleton.mp hj
      exact hi
  · rcases before_concat_iff.mp hb with hb | ⟨-, heq⟩
    · exact ht.ordered j r' k o' hb hk
    · exact absurd heq (by simp)

theorem Tracks.linearizes [DecidableEq ρ] {S : Spec ω ρ σ} (ht : Tracks h log)
    (hlegal : (S.run S.init log).isSome)
    (hret : ∀ i r, .ret i r ∈ h → ∃ o, (i, o, r) ∈ log) : Linearizes S h log :=
  ⟨hlegal, ht.nodup, ht.called, hret, ht.ordered⟩

end Tracks

end Linearizability
