/-
# Iterating over a map that changes

An iterator is opened on a map, and its `next` calls alternate with calls that change the
map, in any order.  Between `next` calls the iterator is a place of its own.

* `Session` — the run of one iterator: the map, the place, and as history the states of the
  map from the beginning to the end of the iteration and the answers of `next`;
* `Faithful` — the keys increase from the start key on, nothing follows the end, and at the
  end no key is missing that was there all the time;
* `Iterator.run_invariant` — what every step keeps, a run keeps.

Nothing here refers to a particular program.
-/
import Mathlib.Tactic

namespace Iteration

variable {σ κ ι : Type*}

/-- A call on the map, or a call of `next`. -/
inductive Event (ι : Type*) where
  | call (c : ι)
  | next
  deriving DecidableEq, Repr

/-- `next` answers with a key, or with `none` at the end, and moves on; `exec` is what a call
makes of the map.  Both may need fuel. -/
structure Iterator (σ κ ι : Type*) where
  next : ℕ → σ → κ → Option (Option ℕ × κ)
  exec : ℕ → σ → ι → Option σ

/-- The run of an iterator so far. -/
structure Session (σ κ : Type*) where
  state : σ
  place : κ
  watched : List σ
  answers : List (σ × Option ℕ)

namespace Session

/-- The iterator has just been opened. -/
def opened (state : σ) (place : κ) : Session σ κ := ⟨state, place, [state], []⟩

/-- The end was answered. -/
def ended (s : Session σ κ) : Bool := s.answers.any fun a => a.2.isNone

/-- The keys that were returned. -/
def keys (s : Session σ κ) : List ℕ := s.answers.filterMap Prod.snd

/-- The key was there from the beginning of the iteration to its end. -/
def Steady (present : σ → ℕ → Prop) (s : Session σ κ) (k : ℕ) : Prop :=
  ∀ t ∈ s.watched, present t k

/-- A call on the map. -/
def called (s : Session σ κ) (state : σ) : Session σ κ :=
  { s with state := state, watched := if s.ended then s.watched else s.watched ++ [state] }

/-- A call of `next`. -/
def answered (s : Session σ κ) (key : Option ℕ) (place : κ) : Session σ κ :=
  { s with place := place, answers := s.answers ++ [(s.state, key)] }

end Session

namespace Iterator

/-- One event. -/
def step (it : Iterator σ κ ι) (fuel : ℕ) (s : Session σ κ) : Event ι → Option (Session σ κ)
  | .call c => (it.exec fuel s.state c).map s.called
  | .next => (it.next fuel s.state s.place).map fun r => s.answered r.1 r.2

/-- The events, one after the other. -/
def run (it : Iterator σ κ ι) (fuel : ℕ) : Session σ κ → List (Event ι) → Option (Session σ κ)
  | s, [] => some s
  | s, e :: es => (it.step fuel s e).bind fun t => it.run fuel t es

/-- Every event of the run meets a condition on the session in which it happens. -/
def Meets (it : Iterator σ κ ι) (ok : Session σ κ → Event ι → Prop) :
    Session σ κ → List (Event ι) → Prop
  | _, [] => True
  | s, e :: es => ok s e ∧ ∀ fuel t, it.step fuel s e = some t → it.Meets ok t es

end Iterator

/-- **What an iteration is to do.** -/
structure Faithful (present : σ → ℕ → Prop) (start : ℕ) (s : Session σ κ) : Prop where
  increasing : s.keys.Pairwise (· < ·)
  from_start : ∀ k ∈ s.keys, start ≤ k
  complete : s.ended = true → ∀ k ≥ start, s.Steady present k → k ∈ s.keys
  last : s.answers.Pairwise fun a b => a.2 = none → b.2 = none

/-- Every key was there when it was returned. -/
def Current (present : σ → ℕ → Prop) (s : Session σ κ) : Prop :=
  ∀ a ∈ s.answers, ∀ k ∈ a.2, present a.1 k

/-! ## Steps -/

section Session

variable {s : Session σ κ} {state : σ} {place : κ} {present : σ → ℕ → Prop} {start k : ℕ}

@[simp] theorem keys_called : (s.called state).keys = s.keys := rfl
@[simp] theorem ended_called : (s.called state).ended = s.ended := rfl
@[simp] theorem state_called : (s.called state).state = state := rfl
@[simp] theorem place_called : (s.called state).place = s.place := rfl
@[simp] theorem state_answered (o : Option ℕ) : (s.answered o place).state = s.state := rfl
@[simp] theorem place_answered (o : Option ℕ) : (s.answered o place).place = place := rfl

@[simp] theorem keys_answered (o : Option ℕ) : (s.answered o place).keys = s.keys ++ o.toList := by
  cases o <;> simp [Session.keys, Session.answered]

@[simp] theorem ended_answered (o : Option ℕ) :
    (s.answered o place).ended = (s.ended || o.isNone) := by
  simp [Session.ended, Session.answered]

/-- A key that is still steady after a call was steady before and is there now. -/
theorem steady_called (hended : s.ended = false) :
    (s.called state).Steady present k ↔ s.Steady present k ∧ present state k := by
  simp only [Session.Steady, Session.called, hended, Bool.false_eq_true, if_false,
    List.forall_mem_append, List.forall_mem_singleton]

theorem steady_called_of_ended (hended : s.ended = true) :
    (s.called state).Steady present k ↔ s.Steady present k := by
  simp only [Session.Steady, Session.called, hended, if_true]

/-- Before the end every answer is a key. -/
theorem answers_of_not_ended (hended : s.ended = false) : ∀ a ∈ s.answers, a.2 ≠ none := by
  intro a ha hnone
  have hany : s.ended = true := List.any_eq_true.mpr ⟨a, ha, by simp [hnone]⟩
  rw [hended] at hany
  cases hany

end Session

section Faithful

variable {s : Session σ κ} {present : σ → ℕ → Prop} {start k : ℕ}

theorem Faithful.opened (state : σ) (place : κ) :
    Faithful present start (Session.opened state place) where
  increasing := List.Pairwise.nil
  from_start := nofun
  complete := nofun
  last := List.Pairwise.nil

theorem Faithful.called (h : Faithful present start s) (state : σ) :
    Faithful present start (s.called state) where
  increasing := h.increasing
  from_start := h.from_start
  complete hended k hk hsteady := by
    have hended' : s.ended = true := hended
    exact h.complete hended k hk ((steady_called_of_ended hended').mp hsteady)
  last := h.last

/-- A larger key is returned. -/
theorem Faithful.answered_key (h : Faithful present start s) (hended : s.ended = false)
    (hk : start ≤ k) (hlt : ∀ l ∈ s.keys, l < k) (place : κ) :
    Faithful present start (s.answered (some k) place) where
  increasing := by
    rw [keys_answered]
    refine List.pairwise_append.mpr ⟨h.increasing, List.pairwise_singleton .., fun l hl m hm => ?_⟩
    obtain rfl := List.mem_singleton.mp hm
    exact hlt l hl
  from_start l hl := by
    rw [keys_answered] at hl
    rcases List.mem_append.mp hl with hl | hl
    · exact h.from_start l hl
    · obtain rfl := List.mem_singleton.mp hl
      exact hk
  complete hended' := by
    rw [ended_answered, hended] at hended'
    cases hended'
  last := by
    refine List.pairwise_append.mpr ⟨h.last, List.pairwise_singleton .., fun a ha b _ hnone => ?_⟩
    exact absurd hnone (answers_of_not_ended hended a ha)

/-- The end is answered. -/
theorem Faithful.answered_none (h : Faithful present start s)
    (hall : ∀ k ≥ start, s.Steady present k → k ∈ s.keys) (place : κ) :
    Faithful present start (s.answered none place) where
  increasing := by simpa using h.increasing
  from_start := by simpa using h.from_start
  complete _ k hk hsteady := by simpa using hall k hk hsteady
  last := by
    refine List.pairwise_append.mpr ⟨h.last, List.pairwise_singleton .., fun a _ b hb _ => ?_⟩
    obtain rfl := List.mem_singleton.mp hb
    rfl

theorem Current.answered (h : Current present s) (o : Option ℕ)
    (ho : ∀ k ∈ o, present s.state k) (place : κ) : Current present (s.answered o place) := by
  intro a ha k hk
  rcases List.mem_append.mp ha with ha | ha
  · exact h a ha k hk
  · obtain rfl := List.mem_singleton.mp ha
    exact ho k hk

end Faithful

/-! ## Runs -/

section Run

variable {it : Iterator σ κ ι} {ok : Session σ κ → Event ι → Prop} {I : Session σ κ → Prop}
  {s : Session σ κ} {es : List (Event ι)}

/-- A condition on the events alone. -/
theorem meets_of_forall {P : Event ι → Prop} (h : ∀ e ∈ es, P e) : it.Meets (fun _ e => P e) s es := by
  induction es generalizing s with
  | nil => trivial
  | cons e es ih =>
    exact ⟨h e List.mem_cons_self, fun _ _ _ => ih fun e' he => h e' (List.mem_cons_of_mem e he)⟩

theorem Iterator.Meets.and_forall {P : Event ι → Prop} (h : it.Meets ok s es) (hP : ∀ e ∈ es, P e) :
    it.Meets (fun s e => P e ∧ ok s e) s es := by
  induction es generalizing s with
  | nil => trivial
  | cons e es ih =>
    refine ⟨⟨hP e List.mem_cons_self, h.1⟩, fun fuel t ht => ?_⟩
    exact ih (h.2 fuel t ht) fun e' he => hP e' (List.mem_cons_of_mem e he)

/-- **What every step keeps, a run keeps**, and it goes on as long as its steps do. -/
theorem Iterator.run_invariant
    (hstep : ∀ s e, I s → ok s e → ∃ fuel t, (∀ fuel' ≥ fuel, it.step fuel' s e = some t) ∧ I t)
    (hs : I s) (hmeets : it.Meets ok s es) :
    ∃ fuel t, (∀ fuel' ≥ fuel, it.run fuel' s es = some t) ∧ I t := by
  induction es generalizing s with
  | nil => exact ⟨0, s, fun _ _ => rfl, hs⟩
  | cons e es ih =>
    obtain ⟨fuel₁, t, ht, hI⟩ := hstep s e hs hmeets.1
    obtain ⟨fuel₂, u, hu, hIu⟩ := ih hI (hmeets.2 fuel₁ t (ht fuel₁ le_rfl))
    refine ⟨max fuel₁ fuel₂, u, fun fuel' hf => ?_, hIu⟩
    rw [Iterator.run, ht fuel' ((le_max_left _ _).trans hf)]
    exact hu fuel' ((le_max_right _ _).trans hf)

end Run

end Iteration
