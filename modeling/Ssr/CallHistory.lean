/-
# The history of the calls of a program

A program of atomic steps, the calls it makes and what they answer.

* `Record` — the calls and returns so far; the calls of a thread are numbered;
* `history` — the history of a run;
* `Explains` — rely-guarantee for a program together with an explanation that the proof chooses
  step by step, and its rule `Explains.holds_run`.

Nothing here refers to a particular program.
-/
import Ssr.Interleaving
import Ssr.Linearizability

open Interleaving

namespace Linearizability

/-! ## Recording calls and returns -/

variable {σ κ ι γ ω ρ : Type*}

/-- The calls and returns so far, and how many calls each thread has made. -/
structure Record (ω ρ : Type*) where
  calls : ℕ → ℕ
  events : List (Event (ℕ × ℕ) ω ρ)

namespace Record

/-- Nothing was called. -/
def init : Record ω ρ := ⟨fun _ => 0, []⟩

/-- The call that thread `t` made last. -/
def current (g : Record ω ρ) (t : ℕ) : ℕ × ℕ := (t, g.calls t)

/-- Thread `t` calls. -/
def call (g : Record ω ρ) (t : ℕ) (o : ω) : Record ω ρ where
  calls := Function.update g.calls t (g.calls t + 1)
  events := g.events ++ [.call (t, g.calls t + 1) o]

/-- Thread `t` returns. -/
def ret (g : Record ω ρ) (t : ℕ) (v : ρ) : Record ω ρ :=
  { g with events := g.events ++ [.ret (g.current t) v] }

/-- What a step leaves: `called` is what it calls, `answer` with what it returns. -/
def note (g : Record ω ρ) (t : ℕ) (called : Option ω) (answer : Option ρ) : Record ω ρ :=
  let g := match called with
    | some o => g.call t o
    | none => g
  match answer with
  | some v => g.ret t v
  | none => g

/-- The record after one step of the program. -/
def after (prog : ℕ → σ → κ → ι → Option (σ × κ)) (begins : ι → Option ω) (ends : κ → Option ρ)
    (t : ℕ) (s : σ) (g : Record ω ρ) (k : κ) (i : ι) : Record ω ρ :=
  match prog t s k i with
  | some (_, k') => g.note t (begins i) (ends k')
  | none => g

/-- The calls are numbered one after another. -/
def Numbered (g : Record ω ρ) : Prop :=
  ∀ r : ℕ × ℕ, g.calls r.1 < r.2 → (∀ o, .call r o ∉ g.events) ∧ ∀ v, .ret r v ∉ g.events

section Numbered

variable {g : Record ω ρ} {t : ℕ} {o : ω} {v : ρ}

@[simp] theorem current_call (g : Record ω ρ) (t : ℕ) (o : ω) :
    (g.call t o).current t = (t, g.calls t + 1) := by
  simp [current, call]

theorem calls_call_of_ne {u : ℕ} (hu : u ≠ t) : (g.call t o).calls u = g.calls u :=
  Function.update_of_ne hu ..

theorem numbered_init : (init : Record ω ρ).Numbered :=
  fun _ _ => ⟨fun _ => List.not_mem_nil, fun _ => List.not_mem_nil⟩

theorem Numbered.call (hg : g.Numbered) (t : ℕ) (o : ω) : (g.call t o).Numbered := by
  intro r hr
  have hlt : g.calls r.1 < r.2 ∧ r ≠ (t, g.calls t + 1) := by
    by_cases hrt : r.1 = t
    · simp only [Record.call, hrt, Function.update_self] at hr
      rw [hrt]
      refine ⟨by omega, ?_⟩
      rintro rfl
      exact absurd hr (lt_irrefl _)
    · rw [calls_call_of_ne hrt] at hr
      exact ⟨hr, fun heq => hrt (congrArg Prod.fst heq)⟩
  obtain ⟨hcall, hret⟩ := hg r hlt.1
  refine ⟨fun o' ho' => ?_, fun w hw => ?_⟩
  · rcases List.mem_append.mp ho' with ho' | ho'
    · exact hcall o' ho'
    · cases List.mem_singleton.mp ho'
      exact hlt.2 rfl
  · rcases List.mem_append.mp hw with hw | hw
    · exact hret w hw
    · cases List.mem_singleton.mp hw

theorem Numbered.ret (hg : g.Numbered) (t : ℕ) (v : ρ) : (g.ret t v).Numbered := by
  intro r hr
  obtain ⟨hcall, hret⟩ := hg r hr
  refine ⟨fun o' ho' => ?_, fun w hw => ?_⟩
  · rcases List.mem_append.mp ho' with ho' | ho'
    · exact hcall o' ho'
    · cases List.mem_singleton.mp ho'
  · rcases List.mem_append.mp hw with hw | hw
    · exact hret w hw
    · cases List.mem_singleton.mp hw
      exact absurd hr (lt_irrefl _)

/-- A step that calls nothing. -/
theorem calls_note (g : Record ω ρ) (t : ℕ) (a : Option ρ) : (g.note t none a).calls = g.calls := by
  cases a <;> rfl

theorem current_note (g : Record ω ρ) (t : ℕ) (a : Option ρ) :
    (g.note t none a).current = g.current := by
  funext u
  rw [current, current, calls_note]

theorem Numbered.note (hg : g.Numbered) (t : ℕ) (a : Option ρ) : (g.note t none a).Numbered := by
  cases a with
  | none => exact hg
  | some v => exact hg.ret t v

end Numbered

end Record

/-- The history of a run. -/
def history (prog : ℕ → σ → κ → ι → Option (σ × κ)) (begins : ι → Option ω) (ends : κ → Option ρ)
    (c : Conf σ κ) (es : List (ℕ × ι)) : List (Event (ℕ × ℕ) ω ρ) :=
  match run (interleave (withStory prog (Record.after prog begins ends))) (c.withStory .init) es with
  | some c' => c'.shared.2.events
  | none => []

/-- A run with a record of it. -/
theorem run_withStory {prog : ℕ → σ → κ → ι → Option (σ × κ)} (after : ℕ → σ → γ → κ → ι → γ)
    {c c' : Conf σ κ} {es : List (ℕ × ι)} (g : γ) (hrun : run (interleave prog) c es = some c') :
    ∃ g', run (interleave (withStory prog after)) (c.withStory g) es = some (c'.withStory g') := by
  induction es generalizing c g with
  | nil =>
    cases hrun
    exact ⟨g, rfl⟩
  | cons e es ih =>
    obtain ⟨c₁, h₁, h₂⟩ := run_cons_eq_some.mp hrun
    obtain ⟨g', hg'⟩ := ih (after e.1 c.shared g (c.thread e.1) e.2) h₂
    refine ⟨g', run_cons_eq_some.mpr ⟨_, ?_, hg'⟩⟩
    rw [interleave_withStory, h₁]
    rfl

/-! ## Explanations -/

/-- Rely-guarantee for a program with an explanation of what it did: for every step of the
program there is one that fits. -/
structure Explains (prog : ℕ → σ → κ → ι → Option (σ × κ)) (ok : ℕ → σ → κ → ι → Prop)
    (Inv : σ → γ → Prop) (Loc : ℕ → σ → γ → κ → Prop) (Rely : ℕ → σ → γ → σ → γ → Prop) : Prop where
  guarantee : ∀ t s g k i s' k', Inv s g → Loc t s g k → ok t s k i →
    prog t s k i = some (s', k') → ∃ g', Inv s' g' ∧ Loc t s' g' k' ∧ ∀ u, u ≠ t → Rely u s g s' g'
  stable : ∀ u s g s' g' k, Inv s g → Rely u s g s' g' → Loc u s g k → Loc u s' g' k

/-- **Whole runs**: there is an explanation of every run. -/
theorem Explains.holds_run {prog : ℕ → σ → κ → ι → Option (σ × κ)} {ok : ℕ → σ → κ → ι → Prop}
    {Inv : σ → γ → Prop} {Loc : ℕ → σ → γ → κ → Prop} {Rely : ℕ → σ → γ → σ → γ → Prop}
    (h : Explains prog ok Inv Loc Rely) {c c' : Conf σ κ} {g : γ} {es : List (ℕ × ι)}
    (hinv : Inv c.shared g) (hloc : ∀ t, Loc t c.shared g (c.thread t))
    (hok : StepsMeet (interleave prog) (onThread ok) c es)
    (hrun : run (interleave prog) c es = some c') :
    ∃ g', Inv c'.shared g' ∧ ∀ t, Loc t c'.shared g' (c'.thread t) := by
  induction es generalizing c g with
  | nil =>
    cases hrun
    exact ⟨g, hinv, hloc⟩
  | cons e es ih =>
    obtain ⟨c₁, h₁, h₂⟩ := run_cons_eq_some.mp hrun
    obtain ⟨k', hprog, hthr⟩ := interleave_eq_some.mp h₁
    obtain ⟨g₁, hinv₁, hloc₁, hrely⟩ :=
      h.guarantee e.1 c.shared g (c.thread e.1) e.2 c₁.shared k' hinv (hloc e.1) hok.1 hprog
    refine ih hinv₁ (fun u => ?_) (hok.2 c₁ h₁) h₂
    rw [hthr]
    by_cases hu : u = e.1
    · subst hu
      rw [Function.update_self]
      exact hloc₁
    · rw [Function.update_of_ne hu]
      exact h.stable u c.shared g c₁.shared g₁ _ hinv (hrely u hu) (hloc u)

end Linearizability
