/-
# Runs, interleavings and the rely-guarantee rule

The general half of every concurrency argument of the development.  A system is
a partial step function `step : σ → ε → Option σ`; a run is a list of events; an
event that is not enabled makes the run undefined.  On top of it stands the
interleaving of any number of threads over one shared state: an event is a
thread number together with the input of its step.

* `run`, `StepsMeet` — runs, and runs whose steps all meet a condition;
* `run_invariant` — the invariant rule for both;
* `Conf`, `interleave` — the interleaved system of a thread program;
* `RelyGuarantee` — one thread at a time: a shared invariant, a local invariant
  per thread, and what a thread may rely on about the steps of the others;
* `withStory` — a record of the past that only the proof reads.

Nothing here refers to a particular program.
-/
import Mathlib.Data.List.Basic
import Mathlib.Logic.Function.Basic
import Mathlib.Tactic

namespace Interleaving

/-! ## Runs -/

section Run

variable {σ ε : Type*}

/-- The state reached by taking the events in order; `none` when one of them is
not enabled. -/
def run (step : σ → ε → Option σ) : σ → List ε → Option σ
  | s, [] => some s
  | s, e :: es => (step s e).bind fun s' => run step s' es

/-- Every event of the run is taken in a state where `ok` holds of it. -/
def StepsMeet (step : σ → ε → Option σ) (ok : σ → ε → Prop) : σ → List ε → Prop
  | _, [] => True
  | s, e :: es => ok s e ∧ ∀ s' ∈ step s e, StepsMeet step ok s' es

/-- A decidable condition can be checked along a concrete run. -/
instance StepsMeet.decidable (step : σ → ε → Option σ) (ok : σ → ε → Prop)
    [∀ s e, Decidable (ok s e)] : ∀ s es, Decidable (StepsMeet step ok s es)
  | _, [] => isTrue trivial
  | s, e :: es =>
    have : DecidablePred fun s' => StepsMeet step ok s' es :=
      fun s' => StepsMeet.decidable step ok s' es
    inferInstanceAs (Decidable (ok s e ∧ ∀ s' ∈ step s e, StepsMeet step ok s' es))

variable {step : σ → ε → Option σ} {ok : σ → ε → Prop}

@[simp] theorem run_nil (s : σ) : run step s [] = some s := rfl

theorem run_cons (s : σ) (e : ε) (es : List ε) :
    run step s (e :: es) = (step s e).bind fun s' => run step s' es := rfl

theorem run_cons_eq_some {s s'' : σ} {e : ε} {es : List ε} :
    run step s (e :: es) = some s'' ↔ ∃ s', step s e = some s' ∧ run step s' es = some s'' := by
  rw [run_cons, Option.bind_eq_some_iff]

theorem run_append (s : σ) (es es' : List ε) :
    run step s (es ++ es') = (run step s es).bind fun s' => run step s' es' := by
  induction es generalizing s with
  | nil => rfl
  | cons e es ih =>
    rw [List.cons_append, run_cons, run_cons, Option.bind_assoc]
    congr 1
    funext s'
    exact ih s'

theorem run_append_eq_some {s s'' : σ} {es es' : List ε} :
    run step s (es ++ es') = some s''
      ↔ ∃ s', run step s es = some s' ∧ run step s' es' = some s'' := by
  rw [run_append, Option.bind_eq_some_iff]

/-- **The invariant rule** for runs whose steps all meet `ok`. -/
theorem run_invariant {Inv : σ → Prop}
    (hstep : ∀ s e s', Inv s → ok s e → step s e = some s' → Inv s')
    {s s' : σ} {es : List ε} (hs : Inv s) (hok : StepsMeet step ok s es)
    (hrun : run step s es = some s') : Inv s' := by
  induction es generalizing s with
  | nil =>
    cases hrun
    exact hs
  | cons e es ih =>
    obtain ⟨s₁, h₁, h₂⟩ := run_cons_eq_some.mp hrun
    exact ih (hstep s e s₁ hs hok.1 h₁) (hok.2 s₁ h₁) h₂

/-- The second half of a run whose steps all meet `ok`. -/
theorem StepsMeet.of_append {s s' : σ} {es es' : List ε} (h : StepsMeet step ok s (es ++ es'))
    (hrun : run step s es = some s') : StepsMeet step ok s' es' := by
  induction es generalizing s with
  | nil =>
    cases hrun
    exact h
  | cons e es ih =>
    obtain ⟨s₁, h₁, h₂⟩ := run_cons_eq_some.mp hrun
    exact ih (h.2 s₁ h₁) h₂

/-- The first half of a run whose steps all meet `ok`. -/
theorem StepsMeet.of_append_left {s : σ} {es es' : List ε} (h : StepsMeet step ok s (es ++ es')) :
    StepsMeet step ok s es := by
  induction es generalizing s with
  | nil => trivial
  | cons e es ih => exact ⟨h.1, fun s' hs' => ih (h.2 s' hs')⟩

theorem StepsMeet.and {ok' : σ → ε → Prop} {s : σ} {es : List ε} (h : StepsMeet step ok s es)
    (h' : StepsMeet step ok' s es) : StepsMeet step (fun s e => ok s e ∧ ok' s e) s es := by
  induction es generalizing s with
  | nil => trivial
  | cons e es ih => exact ⟨⟨h.1, h'.1⟩, fun s' hs' => ih (h.2 s' hs') (h'.2 s' hs')⟩

theorem StepsMeet.mono {ok' : σ → ε → Prop} (himp : ∀ s e, ok s e → ok' s e) {s : σ} {es : List ε}
    (h : StepsMeet step ok s es) : StepsMeet step ok' s es := by
  induction es generalizing s with
  | nil => trivial
  | cons e es ih => exact ⟨himp s e h.1, fun s' hs' => ih (h.2 s' hs')⟩

/-- In a run, a condition follows from another one together with an invariant. -/
theorem StepsMeet.of_run {ok' : σ → ε → Prop} {Inv : σ → Prop}
    (hstep : ∀ s e s', Inv s → ok s e → step s e = some s' → Inv s')
    (himp : ∀ s e s', Inv s → ok s e → step s e = some s' → ok' s e) {s s' : σ} {es : List ε}
    (hs : Inv s) (h : StepsMeet step ok s es) (hrun : run step s es = some s') :
    StepsMeet step ok' s es := by
  induction es generalizing s with
  | nil => trivial
  | cons e es ih =>
    obtain ⟨s₁, h₁, hrest⟩ := run_cons_eq_some.mp hrun
    refine ⟨himp s e s₁ hs h.1 h₁, fun s₂ h₂ => ?_⟩
    obtain rfl : s₁ = s₂ := Option.some.inj (h₁.symm.trans h₂)
    exact ih (hstep s e s₁ hs h.1 h₁) (h.2 s₁ h₁) hrest

/-- The unconditional run meets the trivial condition. -/
theorem stepsMeet_of_forall (h : ∀ s e, ok s e) (s : σ) (es : List ε) :
    StepsMeet step ok s es := by
  induction es generalizing s with
  | nil => trivial
  | cons e es ih => exact ⟨h s e, fun s' _ => ih s'⟩

/-- `P` holds at some moment of the run: before it, between two events, or after it. -/
def Sometime (step : σ → ε → Option σ) (P : σ → Prop) : σ → List ε → Prop
  | s, [] => P s
  | s, e :: es => P s ∨ ∃ s' ∈ step s e, Sometime step P s' es

/-- Whether a decidable property comes up can be checked along a concrete run. -/
instance Sometime.decidable (step : σ → ε → Option σ) (P : σ → Prop) [DecidablePred P] :
    ∀ s es, Decidable (Sometime step P s es)
  | s, [] => inferInstanceAs (Decidable (P s))
  | s, e :: es =>
    have : DecidablePred fun s' => Sometime step P s' es :=
      fun s' => Sometime.decidable step P s' es
    inferInstanceAs (Decidable (P s ∨ ∃ s' ∈ step s e, Sometime step P s' es))

/-- **The until rule.**  Where `Q` can only end in or after a state with `P`, a run from
`Q` that does not end in `Q` has a state with `P`. -/
theorem sometime_or_of_run {Inv P Q : σ → Prop} {ok : σ → ε → Prop}
    (hinv : ∀ s e s', Inv s → ok s e → step s e = some s' → Inv s')
    (hstep : ∀ s e s', Inv s → Q s → ¬ P s → ¬ P s' → ok s e → step s e = some s' → Q s')
    {s s' : σ} {es : List ε} (hs : Inv s) (hq : Q s) (hok : StepsMeet step ok s es)
    (hrun : run step s es = some s') : Sometime step P s es ∨ Q s' := by
  induction es generalizing s with
  | nil =>
    cases hrun
    exact .inr hq
  | cons e es ih =>
    obtain ⟨s₁, h₁, h₂⟩ := run_cons_eq_some.mp hrun
    by_cases hp : P s
    · exact .inl (.inl hp)
    by_cases hp₁ : P s₁
    · refine .inl (.inr ⟨s₁, h₁, ?_⟩)
      cases es with
      | nil => exact hp₁
      | cons e es => exact .inl hp₁
    · have hq₁ := hstep s e s₁ hs hq hp hp₁ hok.1 h₁
      refine (ih (hinv s e s₁ hs hok.1 h₁) hq₁ (hok.2 s₁ h₁) h₂).imp_left fun h => ?_
      exact .inr ⟨s₁, h₁, h⟩

/-- A condition on the events alone. -/
theorem stepsMeet_of_forall_mem {P : ε → Prop} {es : List ε} (h : ∀ e ∈ es, P e) (s : σ) :
    StepsMeet step (fun _ e => P e) s es := by
  induction es generalizing s with
  | nil => trivial
  | cons e es ih =>
    refine ⟨h e List.mem_cons_self, fun s' _ => ?_⟩
    exact ih (fun e' he' => h e' (List.mem_cons_of_mem e he')) s'

/-- Where every step on an event of the run leads to a state with `P` exactly if it meets `ok`,
the states on the way have `P` exactly if all the steps meet it. -/
theorem always_iff_stepsMeet {Inv P : σ → Prop} {E : ε → Prop}
    (hstep : ∀ s e s', Inv s → P s → E e → step s e = some s' → Inv s' ∧ (P s' ↔ ok s e))
    {s s'' : σ} {es : List ε} (hs : Inv s) (hP : P s) (hes : ∀ e ∈ es, E e)
    (hrun : run step s es = some s'') :
    (∀ pre post s', es = pre ++ post → run step s pre = some s' → P s')
      ↔ StepsMeet step ok s es := by
  induction es generalizing s with
  | nil =>
    refine ⟨fun _ => trivial, fun _ pre post s' heq hpre => ?_⟩
    obtain ⟨rfl, rfl⟩ := List.append_eq_nil_iff.mp heq.symm
    cases hpre
    exact hP
  | cons e es ih =>
    obtain ⟨s₁, h₁, h₂⟩ := run_cons_eq_some.mp hrun
    obtain ⟨hs₁, hiff⟩ := hstep s e s₁ hs hP (hes e List.mem_cons_self) h₁
    have hes' : ∀ e' ∈ es, E e' := fun e' he' => hes e' (List.mem_cons_of_mem e he')
    constructor
    · intro hall
      have hP₁ : P s₁ := hall [e] es s₁ rfl (run_cons_eq_some.mpr ⟨s₁, h₁, rfl⟩)
      refine ⟨hiff.mp hP₁, fun s₂ hs₂ => ?_⟩
      obtain rfl : s₁ = s₂ := Option.some.inj (h₁.symm.trans hs₂)
      refine (ih hs₁ hP₁ hes' h₂).mp fun pre post s' heq hpre => ?_
      exact hall (e :: pre) post s' (by rw [heq]; rfl) (run_cons_eq_some.mpr ⟨s₁, h₁, hpre⟩)
    · rintro ⟨hok, hrest⟩ pre post s' heq hpre
      have hP₁ : P s₁ := hiff.mpr hok
      cases pre with
      | nil =>
        cases hpre
        exact hP
      | cons e' pre =>
        obtain ⟨rfl, rfl⟩ := List.cons.inj heq
        obtain ⟨s₂, hs₂, hpre⟩ := run_cons_eq_some.mp hpre
        obtain rfl : s₁ = s₂ := Option.some.inj (h₁.symm.trans hs₂)
        exact (ih hs₁ hP₁ hes' h₂).mpr (hrest s₁ h₁) pre post s' rfl hpre

/-- A condition that follows from an invariant, on a run whose events keep it. -/
theorem stepsMeet_of_invariant {Inv : σ → Prop} {E : ε → Prop}
    (hstep : ∀ s e s', Inv s → E e → step s e = some s' → Inv s')
    (hok : ∀ s e, Inv s → E e → ok s e) {s : σ} {es : List ε} (hs : Inv s) (hes : ∀ e ∈ es, E e) :
    StepsMeet step ok s es := by
  induction es generalizing s with
  | nil => trivial
  | cons e es ih =>
    have he : E e := hes e List.mem_cons_self
    refine ⟨hok s e hs he, fun s' hs' => ih (hstep s e s' hs he hs') fun e' he' => ?_⟩
    exact hes e' (List.mem_cons_of_mem e he')

/-- The invariant rule for unconditional runs. -/
theorem run_invariant_always {Inv : σ → Prop}
    (hstep : ∀ s e s', Inv s → step s e = some s' → Inv s')
    {s s' : σ} {es : List ε} (hs : Inv s) (hrun : run step s es = some s') : Inv s' := by
  have hok : StepsMeet step (fun _ _ => True) s es := stepsMeet_of_forall (fun _ _ => trivial) s es
  exact run_invariant (fun s e s' h _ => hstep s e s' h) hs hok hrun

end Run

/-! ## Interleaved threads -/

section Threads

variable {σ κ ι : Type*}

/-- A configuration: the shared state and the local state of every thread. -/
structure Conf (σ κ : Type*) where
  shared : σ
  thread : ℕ → κ

/-- One step of thread `e.1` with input `e.2`; the other threads stand still. -/
def interleave (prog : ℕ → σ → κ → ι → Option (σ × κ)) (c : Conf σ κ) (e : ℕ × ι) :
    Option (Conf σ κ) :=
  (prog e.1 c.shared (c.thread e.1) e.2).map fun r =>
    ⟨r.1, Function.update c.thread e.1 r.2⟩

theorem interleave_eq_some {prog : ℕ → σ → κ → ι → Option (σ × κ)} {c c' : Conf σ κ}
    {e : ℕ × ι} :
    interleave prog c e = some c'
      ↔ ∃ k', prog e.1 c.shared (c.thread e.1) e.2 = some (c'.shared, k')
          ∧ c'.thread = Function.update c.thread e.1 k' := by
  unfold interleave
  rw [Option.map_eq_some_iff]
  constructor
  · rintro ⟨⟨s', k'⟩, h, rfl⟩
    exact ⟨k', h, rfl⟩
  · rintro ⟨k', h, hthr⟩
    refine ⟨(c'.shared, k'), h, ?_⟩
    rw [← hthr]

/-- A thread that takes no step of the run stays where it is. -/
theorem run_thread_eq {prog : ℕ → σ → κ → ι → Option (σ × κ)} {c c' : Conf σ κ}
    {es : List (ℕ × ι)} {t : ℕ} (ht : ∀ e ∈ es, e.1 ≠ t)
    (hrun : run (interleave prog) c es = some c') : c'.thread t = c.thread t := by
  induction es generalizing c with
  | nil =>
    cases hrun
    rfl
  | cons e es ih =>
    obtain ⟨c₁, hstep, hrun⟩ := run_cons_eq_some.mp hrun
    obtain ⟨k', _, hthr⟩ := interleave_eq_some.mp hstep
    rw [ih (fun e' he' => ht e' (List.mem_cons_of_mem e he')) hrun, hthr,
      Function.update_of_ne (ht e List.mem_cons_self).symm]

/-- What the threads of `T` have together changes by what the one that takes a step has. -/
theorem sum_thread_update {κ α : Type*} [AddCommMonoid α] (f : κ → α) (thread : ℕ → κ)
    {T : Finset ℕ} {t : ℕ} (ht : t ∈ T) (k' : κ) :
    ∑ u ∈ T, f (Function.update thread t k' u) + f (thread t) = ∑ u ∈ T, f (thread u) + f k' := by
  rw [← Finset.add_sum_erase T (fun u => f (Function.update thread t k' u)) ht,
    ← Finset.add_sum_erase T (fun u => f (thread u)) ht]
  have hrest : ∑ u ∈ T.erase t, f (Function.update thread t k' u)
      = ∑ u ∈ T.erase t, f (thread u) :=
    Finset.sum_congr rfl fun u hu => by
      rw [Function.update_of_ne (Finset.ne_of_mem_erase hu)]
  rw [hrest, Function.update_self]
  abel

/-- The condition on a step of one thread, read on configurations. -/
def onThread (ok : ℕ → σ → κ → ι → Prop) (c : Conf σ κ) (e : ℕ × ι) : Prop :=
  ok e.1 c.shared (c.thread e.1) e.2

instance (ok : ℕ → σ → κ → ι → Prop) [∀ t s k i, Decidable (ok t s k i)] (c : Conf σ κ)
    (e : ℕ × ι) : Decidable (onThread ok c e) :=
  inferInstanceAs (Decidable (ok _ _ _ _))

/-- **Rely-guarantee.**  A step of thread `t` that meets `ok` keeps the shared
invariant and `t`'s local invariant and guarantees to every other thread what
that thread relies on; a local invariant is stable under what it relies on. -/
structure RelyGuarantee (prog : ℕ → σ → κ → ι → Option (σ × κ))
    (ok : ℕ → σ → κ → ι → Prop) (Inv : σ → Prop) (Loc : ℕ → σ → κ → Prop)
    (Rely : ℕ → σ → σ → Prop) : Prop where
  guarantee : ∀ t s k i s' k', Inv s → Loc t s k → ok t s k i →
    prog t s k i = some (s', k') → Inv s' ∧ Loc t s' k' ∧ ∀ u, u ≠ t → Rely u s s'
  stable : ∀ u s s' k, Inv s → Rely u s s' → Loc u s k → Loc u s' k

/-- The global invariant assembled from the shared and the local ones. -/
def Conf.Holds (Inv : σ → Prop) (Loc : ℕ → σ → κ → Prop) (c : Conf σ κ) : Prop :=
  Inv c.shared ∧ ∀ t, Loc t c.shared (c.thread t)

variable {prog : ℕ → σ → κ → ι → Option (σ × κ)} {ok : ℕ → σ → κ → ι → Prop}
  {Inv : σ → Prop} {Loc : ℕ → σ → κ → Prop} {Rely : ℕ → σ → σ → Prop}

/-- One interleaved step keeps the global invariant. -/
theorem RelyGuarantee.holds_step (h : RelyGuarantee prog ok Inv Loc Rely)
    {c c' : Conf σ κ} {e : ℕ × ι} (hc : c.Holds Inv Loc) (hok : onThread ok c e)
    (hstep : interleave prog c e = some c') : c'.Holds Inv Loc := by
  obtain ⟨k', hprog, hthr⟩ := interleave_eq_some.mp hstep
  obtain ⟨hinv, hloc, hrely⟩ :=
    h.guarantee e.1 c.shared (c.thread e.1) e.2 c'.shared k' hc.1 (hc.2 e.1) hok hprog
  refine ⟨hinv, fun u => ?_⟩
  rw [hthr]
  by_cases hu : u = e.1
  · subst hu
    rw [Function.update_self]
    exact hloc
  · rw [Function.update_of_ne hu]
    exact h.stable u c.shared c'.shared _ hc.1 (hrely u hu) (hc.2 u)

/-- **Whole runs**: the global invariant holds in every state reached. -/
theorem RelyGuarantee.holds_run (h : RelyGuarantee prog ok Inv Loc Rely)
    {c c' : Conf σ κ} {es : List (ℕ × ι)} (hc : c.Holds Inv Loc)
    (hok : StepsMeet (interleave prog) (onThread ok) c es)
    (hrun : run (interleave prog) c es = some c') : c'.Holds Inv Loc := by
  refine run_invariant ?_ hc hok hrun
  intro s e s' hs hk hst
  exact h.holds_step hs hk hst

/-! ## Auxiliary state -/

section Story

variable {γ : Type*} {after : ℕ → σ → γ → κ → ι → γ}

/-- The program with a record of what has happened so far, which no step reads. -/
def withStory (prog : ℕ → σ → κ → ι → Option (σ × κ)) (after : ℕ → σ → γ → κ → ι → γ) :
    ℕ → σ × γ → κ → ι → Option ((σ × γ) × κ) :=
  fun t s k i => (prog t s.1 k i).map fun r => ((r.1, after t s.1 s.2 k i), r.2)

theorem withStory_eq_some {t : ℕ} {s s' : σ × γ} {k k' : κ} {i : ι} :
    withStory prog after t s k i = some (s', k')
      ↔ prog t s.1 k i = some (s'.1, k') ∧ s'.2 = after t s.1 s.2 k i := by
  unfold withStory
  rw [Option.map_eq_some_iff]
  constructor
  · rintro ⟨⟨r, k''⟩, h, heq⟩
    cases heq
    exact ⟨h, rfl⟩
  · rintro ⟨h, heq⟩
    refine ⟨(s'.1, k'), h, ?_⟩
    rw [← heq]

/-- The configuration with the record. -/
def Conf.withStory (c : Conf σ κ) (g : γ) : Conf (σ × γ) κ := ⟨(c.shared, g), c.thread⟩

theorem interleave_withStory (c : Conf σ κ) (g : γ) (e : ℕ × ι) :
    interleave (Interleaving.withStory prog after) (c.withStory g) e
      = (interleave prog c e).map fun c' =>
          c'.withStory (after e.1 c.shared g (c.thread e.1) e.2) := by
  simp only [interleave, Interleaving.withStory, Conf.withStory, Option.map_map]
  rfl

/-- **The auxiliary state rule**: an invariant of the program with a record holds of every
run of the program itself, with some record. -/
theorem RelyGuarantee.holds_run_story {Inv : σ × γ → Prop} {Loc : ℕ → σ × γ → κ → Prop}
    {Rely : ℕ → σ × γ → σ × γ → Prop}
    (h : RelyGuarantee (Interleaving.withStory prog after) (fun t s k i => ok t s.1 k i)
      Inv Loc Rely)
    {c c' : Conf σ κ} {g : γ} {es : List (ℕ × ι)} (hc : (c.withStory g).Holds Inv Loc)
    (hok : StepsMeet (interleave prog) (onThread ok) c es)
    (hrun : run (interleave prog) c es = some c') : ∃ g', (c'.withStory g').Holds Inv Loc := by
  induction es generalizing c g with
  | nil =>
    cases hrun
    exact ⟨g, hc⟩
  | cons e es ih =>
    obtain ⟨c₁, h₁, h₂⟩ := run_cons_eq_some.mp hrun
    have hstep : interleave (Interleaving.withStory prog after) (c.withStory g) e
        = some (c₁.withStory (after e.1 c.shared g (c.thread e.1) e.2)) := by
      rw [interleave_withStory, h₁]
      rfl
    exact ih (h.holds_step hc hok.1 hstep) (hok.2 c₁ h₁) h₂

end Story

end Threads

end Interleaving
