/-
# One thread alone

A thread program run to its end by a single thread, and sequences of calls.

* `finish` — the run of one call, on fuel;
* `Goes` — the steps it takes, and `Goes.finish`: some fuel is enough;
* `calls`, `specCalls` — the results of a sequence of calls, and of the same calls
  on an abstract state;
* `calls_refine` — a relation that every call keeps carries over to sequences;
* `RunMeets`, `RunRefines`, `RunKeeps` — the same under a condition on the states of the
  program, and what holds of all the states of a run.

Nothing here refers to a particular program.
-/
import Ssr.Interleaving
import Mathlib.Logic.Relation

open Interleaving

namespace Sequential

/-! ## One call -/

section Finish

variable {σ κ ι : Type*} (prog : σ → κ → ι → Option (σ × κ)) (input : κ → Option ι)

/-- Take steps until the program wants no further input. -/
def finish : ℕ → σ → κ → Option (σ × κ)
  | 0, _, _ => none
  | fuel + 1, s, k =>
    match input k with
    | none => some (s, k)
    | some i =>
      match prog s k i with
      | none => none
      | some r => finish fuel r.1 r.2

/-- The program goes from one place to another. -/
def Goes : σ × κ → σ × κ → Prop :=
  Relation.ReflTransGen fun a b => ∃ i, input a.2 = some i ∧ prog a.1 a.2 i = some b

variable {prog input}

theorem Goes.refl (a : σ × κ) : Goes prog input a a := Relation.ReflTransGen.refl

theorem Goes.trans {a b c : σ × κ} (h : Goes prog input a b) (h' : Goes prog input b c) :
    Goes prog input a c :=
  Relation.ReflTransGen.trans h h'

/-- One step, and then the rest. -/
theorem Goes.step {s : σ} {k : κ} {i : ι} {b c : σ × κ} (hi : input k = some i)
    (hp : prog s k i = some b) (h : Goes prog input b c) : Goes prog input (s, k) c :=
  Relation.ReflTransGen.head ⟨i, hi, hp⟩ h

/-- Some fuel is enough for the steps that are taken. -/
theorem Goes.finish {a b : σ × κ} (h : Goes prog input a b) (hb : input b.2 = none) :
    ∃ fuel, ∀ fuel' ≥ fuel, finish prog input fuel' a.1 a.2 = some b := by
  induction h using Relation.ReflTransGen.head_induction_on with
  | refl =>
    refine ⟨1, fun fuel' hf => ?_⟩
    obtain ⟨n, rfl⟩ : ∃ n, fuel' = n + 1 := ⟨fuel' - 1, by omega⟩
    simp only [Sequential.finish, hb]
  | head hstep _ ih =>
    obtain ⟨i, hi, hp⟩ := hstep
    obtain ⟨fuel, hfuel⟩ := ih
    refine ⟨fuel + 1, fun fuel' hf => ?_⟩
    obtain ⟨n, rfl⟩ : ∃ n, fuel' = n + 1 := ⟨fuel' - 1, by omega⟩
    simp only [Sequential.finish, hi, hp]
    exact hfuel n (by omega)

/-- More fuel does no harm. -/
theorem finish_mono {fuel fuel' : ℕ} {s : σ} {k : κ} {r : σ × κ} (hle : fuel ≤ fuel')
    (h : finish prog input fuel s k = some r) : finish prog input fuel' s k = some r := by
  induction fuel generalizing fuel' s k with
  | zero => cases h
  | succ n ih =>
    obtain ⟨n', rfl⟩ : ∃ n', fuel' = n' + 1 := ⟨fuel' - 1, by omega⟩
    rw [finish] at h ⊢
    split at h
    · exact h
    · split at h
      · cases h
      · exact ih (by omega) h

/-- A program that takes the same steps on renamed states ends in the renamed state. -/
theorem finish_map {σ' κ' : Type*} {prog' : σ' → κ' → ι → Option (σ' × κ')} {input' : κ' → Option ι}
    (f : σ → σ') (g : κ → κ') (hinput : ∀ k, input' (g k) = input k)
    (hprog : ∀ s k i, input k = some i → prog' (f s) (g k) i = (prog s k i).map (Prod.map f g))
    (fuel : ℕ) (s : σ) (k : κ) : finish prog' input' fuel (f s) (g k)
      = (finish prog input fuel s k).map (Prod.map f g) := by
  induction fuel generalizing s k with
  | zero => rfl
  | succ fuel ih =>
    rw [finish, finish, hinput]
    cases hk : input k with
    | none => rfl
    | some i =>
      simp only [hprog s k i hk]
      cases prog s k i with
      | none => rfl
      | some r => exact ih r.1 r.2

end Finish

/-! ## Sequences of calls -/

section Calls

variable {σ μ ι : Type*}

/-- The results of a sequence of calls, and the state they leave. -/
def calls (exec : ℕ → σ → ι → Option (ℕ × σ)) (fuel : ℕ) : σ → List ι → Option (List ℕ × σ)
  | s, [] => some ([], s)
  | s, c :: cs =>
    match exec fuel s c with
    | none => none
    | some (r, s) => (calls exec fuel s cs).map fun q => (r :: q.1, q.2)

/-- The results of the calls on an abstract state. -/
def specCalls (spec : μ → ι → ℕ × μ) : μ → List ι → List ℕ × μ
  | m, [] => ([], m)
  | m, c :: cs => ((spec m c).1 :: (specCalls spec (spec m c).2 cs).1,
      (specCalls spec (spec m c).2 cs).2)

/-- Every call is made on an abstract state where `ok` holds of it. -/
def Meets (spec : μ → ι → ℕ × μ) (ok : μ → ι → Prop) : μ → List ι → Prop
  | _, [] => True
  | m, c :: cs => ok m c ∧ Meets spec ok (spec m c).2 cs

instance Meets.decidable (spec : μ → ι → ℕ × μ) (ok : μ → ι → Prop)
    [∀ m c, Decidable (ok m c)] : ∀ m cs, Decidable (Meets spec ok m cs)
  | _, [] => isTrue trivial
  | m, c :: cs =>
    have : Decidable (Meets spec ok (spec m c).2 cs) := Meets.decidable spec ok _ cs
    inferInstanceAs (Decidable (ok m c ∧ Meets spec ok (spec m c).2 cs))

variable {exec : ℕ → σ → ι → Option (ℕ × σ)} {spec : μ → ι → ℕ × μ} {ok : μ → ι → Prop}

theorem Meets.mono {ok' : μ → ι → Prop} (h : ∀ m c, ok m c → ok' m c) {m : μ} {cs : List ι}
    (hm : Meets spec ok m cs) : Meets spec ok' m cs := by
  induction cs generalizing m with
  | nil => trivial
  | cons c cs ih => exact ⟨h m c hm.1, ih hm.2⟩

/-- A condition that does not look at the state. -/
theorem meets_of_forall {P : ι → Prop} {cs : List ι} (h : ∀ c ∈ cs, P c) (m : μ) :
    Meets spec (fun _ c => P c) m cs := by
  induction cs generalizing m with
  | nil => trivial
  | cons c cs ih =>
    exact ⟨h c List.mem_cons_self, ih (fun c' hc' => h c' (List.mem_cons_of_mem c hc')) _⟩

theorem Meets.and {ok' : μ → ι → Prop} {m : μ} {cs : List ι} (h : Meets spec ok m cs)
    (h' : Meets spec ok' m cs) : Meets spec (fun m c => ok m c ∧ ok' m c) m cs := by
  induction cs generalizing m with
  | nil => trivial
  | cons c cs ih => exact ⟨⟨h.1, h'.1⟩, ih h.2 h'.2⟩

/-- An invariant of the abstract state holds at every call. -/
theorem Meets.invariant {I : μ → Prop} (hI : ∀ m c, I m → ok m c → I (spec m c).2) {m : μ}
    {cs : List ι} (hm : I m) (h : Meets spec ok m cs) :
    Meets spec (fun m c => I m ∧ ok m c) m cs := by
  induction cs generalizing m with
  | nil => trivial
  | cons c cs ih => exact ⟨⟨hm, h.1⟩, ih (hI m c hm h.1) h.2⟩

/-- Two abstract states that answer the calls in the same way. -/
theorem Meets.congr {spec' : μ → ι → ℕ × μ} (h : ∀ m c, ok m c → spec' m c = spec m c) {m : μ}
    {cs : List ι} (hm : Meets spec ok m cs) :
    specCalls spec' m cs = specCalls spec m cs ∧ Meets spec' ok m cs := by
  induction cs generalizing m with
  | nil => exact ⟨rfl, trivial⟩
  | cons c cs ih =>
    obtain ⟨heq, hmeets⟩ := ih hm.2
    have hc := h m c hm.1
    simp only [specCalls, Meets, hc, heq]
    exact ⟨trivial, hm.1, hmeets⟩

/-- Sequences in two parts. -/
theorem meets_append {m : μ} (cs cs' : List ι) : Meets spec ok m (cs ++ cs') ↔
    Meets spec ok m cs ∧ Meets spec ok (specCalls spec m cs).2 cs' := by
  induction cs generalizing m with
  | nil => simp [Meets, specCalls]
  | cons c cs ih =>
    simp only [List.cons_append, Meets, specCalls, ih]
    tauto

theorem specCalls_append (m : μ) (cs cs' : List ι) : (specCalls spec m (cs ++ cs')).1
    = (specCalls spec m cs).1 ++ (specCalls spec (specCalls spec m cs).2 cs').1 := by
  induction cs generalizing m with
  | nil => rfl
  | cons c cs ih => simp only [List.cons_append, specCalls, ih]

/-- **Sequences of calls**: what every call keeps holds after all of them, and the
results are those of the abstract state. -/
theorem calls_refine {R : σ → μ → Prop}
    (hstep : ∀ s m c, R s m → ok m c → ∃ fuel s',
      (∀ fuel' ≥ fuel, exec fuel' s c = some ((spec m c).1, s')) ∧ R s' (spec m c).2)
    {s : σ} {m : μ} {cs : List ι} (hR : R s m) (hok : Meets spec ok m cs) :
    ∃ fuel s', (∀ fuel' ≥ fuel, calls exec fuel' s cs = some ((specCalls spec m cs).1, s'))
      ∧ R s' (specCalls spec m cs).2 := by
  induction cs generalizing s m with
  | nil => exact ⟨0, s, fun _ _ => rfl, hR⟩
  | cons c cs ih =>
    obtain ⟨fuel₁, s₁, h₁, hR₁⟩ := hstep s m c hR hok.1
    obtain ⟨fuel₂, s₂, h₂, hR₂⟩ := ih hR₁ hok.2
    refine ⟨max fuel₁ fuel₂, s₂, fun fuel' hf => ?_, hR₂⟩
    simp only [calls, h₁ fuel' (le_trans (le_max_left _ _) hf),
      h₂ fuel' (le_trans (le_max_right _ _) hf), Option.map_some, specCalls]

end Calls

/-! ## Runs of the program under a condition on its states -/

section Runs

variable {σ μ ι : Type*}

/-- Some fuel is enough for the call to return. -/
def Answers (exec : ℕ → σ → ι → Option (ℕ × σ)) (s : σ) (c : ι) (r : ℕ) (s' : σ) : Prop :=
  ∃ fuel, ∀ fuel' ≥ fuel, exec fuel' s c = some (r, s')

/-- Every call of the run is made in a state where `ok` holds of it. -/
def RunMeets (exec : ℕ → σ → ι → Option (ℕ × σ)) (ok : σ → ι → Prop) : σ → List ι → Prop
  | _, [] => True
  | s, c :: cs => ok s c ∧ ∀ r s', Answers exec s c r s' → RunMeets exec ok s' cs

/-- Every call of the run returns what the abstract state answers, and `R` holds of every state
and the abstract one. -/
def RunRefines (exec : ℕ → σ → ι → Option (ℕ × σ)) (spec : μ → ι → ℕ × μ) (R : σ → μ → Prop) :
    σ → μ → List ι → Prop
  | s, m, [] => R s m
  | s, m, c :: cs => R s m ∧ ∃ s', Answers exec s c (spec m c).1 s'
    ∧ RunRefines exec spec R s' (spec m c).2 cs

/-- Every call of the run returns, and `P` holds of every state. -/
def RunKeeps (exec : ℕ → σ → ι → Option (ℕ × σ)) (P : σ → Prop) : σ → List ι → Prop
  | s, [] => P s
  | s, c :: cs => P s ∧ ∃ r s', Answers exec s c r s' ∧ RunKeeps exec P s' cs

variable {exec : ℕ → σ → ι → Option (ℕ × σ)} {spec : μ → ι → ℕ × μ} {ok : σ → ι → Prop}
  {R : σ → μ → Prop}

/-- A condition that holds of all calls in all states. -/
theorem runMeets_of_forall {P : ι → Prop} (h : ∀ s c, P c → ok s c) (s : σ) {cs : List ι}
    (hcs : ∀ c ∈ cs, P c) : RunMeets exec ok s cs := by
  induction cs generalizing s with
  | nil => trivial
  | cons c cs ih =>
    exact ⟨h s c (hcs c List.mem_cons_self),
      fun _ s' _ => ih s' fun c' hc' => hcs c' (List.mem_cons_of_mem c hc')⟩

/-- What every call keeps where the condition holds is kept by the runs. -/
theorem runRefines_of_step (hstep : ∀ s m c, R s m → ok s c →
      ∃ s', Answers exec s c (spec m c).1 s' ∧ R s' (spec m c).2)
    {s : σ} {m : μ} {cs : List ι} (hR : R s m) (hok : RunMeets exec ok s cs) :
    RunRefines exec spec R s m cs := by
  induction cs generalizing s m with
  | nil => exact hR
  | cons c cs ih =>
    obtain ⟨s', hans, hR'⟩ := hstep s m c hR hok.1
    exact ⟨hR, s', hans, ih hR' (hok.2 _ s' hans)⟩

/-- The same without an abstract state. -/
theorem runKeeps_of_step {P I : σ → Prop} (hP : ∀ s, I s → P s)
    (hstep : ∀ s c, I s → ok s c → ∃ r s', Answers exec s c r s' ∧ I s')
    {s : σ} {cs : List ι} (hs : I s) (hok : RunMeets exec ok s cs) : RunKeeps exec P s cs := by
  induction cs generalizing s with
  | nil => exact hP s hs
  | cons c cs ih =>
    obtain ⟨r, s', hans, hs'⟩ := hstep s c hs hok.1
    exact ⟨hP s hs, r, s', hans, ih hs' (hok.2 r s' hans)⟩

/-- The calls with some fuel. -/
def stepOf (exec : ℕ → σ → ι → Option (ℕ × σ)) (fuel : ℕ) (s : σ) (c : ι) : Option σ :=
  (exec fuel s c).map Prod.snd

/-- More fuel changes nothing. -/
def FuelMono (exec : ℕ → σ → ι → Option (ℕ × σ)) : Prop :=
  ∀ ⦃fuel fuel' s c q⦄, fuel ≤ fuel' → exec fuel s c = some q → exec fuel' s c = some q

theorem FuelMono.answer_eq (hmono : FuelMono exec) {fuel r r' : ℕ} {s s' t : σ} {c : ι}
    (h : exec fuel s c = some (r, t)) (hans : Answers exec s c r' s') : r' = r ∧ s' = t := by
  obtain ⟨fuel', hans⟩ := hans
  have h₁ := hmono (le_max_left fuel fuel') h
  rw [hans _ (le_max_right fuel fuel')] at h₁
  cases h₁
  exact ⟨rfl, rfl⟩

/-- A run that ends shows what holds of its last state. -/
theorem RunKeeps.last {P : σ → Prop} (hmono : FuelMono exec) {fuel : ℕ} {s s' : σ} {cs : List ι}
    (h : RunKeeps exec P s cs) (hrun : run (stepOf exec fuel) s cs = some s') : P s' := by
  induction cs generalizing s with
  | nil =>
    cases hrun
    exact h
  | cons c cs ih =>
    obtain ⟨-, r, s₁, hans, hrest⟩ := h
    obtain ⟨s₂, hstep, hrun⟩ := run_cons_eq_some.mp hrun
    obtain ⟨⟨r', s₂⟩, hexec, rfl⟩ := Option.map_eq_some_iff.mp hstep
    obtain ⟨-, rfl⟩ := hmono.answer_eq hexec hans
    exact ih hrest hrun

/-- The condition can be checked along a run that ends. -/
theorem runMeets_of_stepsMeet (hmono : FuelMono exec) {fuel : ℕ} {s : σ} {cs : List ι}
    (hok : StepsMeet (stepOf exec fuel) ok s cs) (hrun : (run (stepOf exec fuel) s cs).isSome) :
    RunMeets exec ok s cs := by
  induction cs generalizing s with
  | nil => trivial
  | cons c cs ih =>
    refine ⟨hok.1, fun r s' hans => ?_⟩
    obtain ⟨t, hrun⟩ := Option.isSome_iff_exists.mp hrun
    obtain ⟨s₂, hstep, hrun⟩ := run_cons_eq_some.mp hrun
    obtain ⟨⟨r', s₂⟩, hexec, rfl⟩ := Option.map_eq_some_iff.mp hstep
    obtain ⟨-, rfl⟩ := hmono.answer_eq hexec hans
    exact ih (hok.2 _ hstep) (Option.isSome_of_eq_some hrun)

end Runs

end Sequential
