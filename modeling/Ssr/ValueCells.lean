/-
# Cells that calls fill, update and empty

A set of cells, each of which holds a value once it is filled, and calls that
fill, update and empty them.  What the calls do is a history of observations;
`accept` is the automaton of the lawful histories.

* `Life` — the successive contents of one cell: filled once, then updated any
  number of times, then emptied, and nothing after that;
* `Faithful` — what a history says about its calls: who wrote what and what it
  returned;
* `accept_faithful` — every accepted history is faithful;
* `Simulates` — the rule by which the history of a program of atomic steps is
  accepted.

Nothing here refers to a particular program.
-/
import Ssr.Interleaving

open Interleaving

namespace ValueCells

/-! ## Histories -/

/-- A call: its thread, and its number among the calls of the thread. -/
abbrev Call := ℕ × ℕ

/-- What a call is for: to read, to fill a cell only, to fill or update one, or
to empty one. -/
inductive Kind where
  | read
  | add
  | put
  | remove
  deriving DecidableEq, Repr

/-- What can be observed of a call.  The value `0` stands for an empty cell. -/
inductive Obs where
  | start (r : Call) (k : Kind)
  | insert (r : Call) (n v : ℕ)
  | update (r : Call) (n old new : ℕ)
  | found (r : Call) (n : ℕ)
  | mark (r : Call) (n : ℕ)
  | remove (r : Call) (n old : ℕ)
  | ret (r : Call) (v : ℕ)
  deriving DecidableEq, Repr

/-- The call that is observed. -/
def Obs.call : Obs → Call
  | .start r _ => r
  | .insert r _ _ => r
  | .update r _ _ _ => r
  | .found r _ => r
  | .mark r _ => r
  | .remove r _ _ => r
  | .ret r _ => r

/-- The observation is a write of cell `n`. -/
def Obs.writes (n : ℕ) : Obs → Bool
  | .insert _ m _ => m = n
  | .update _ m _ _ => m = n
  | .remove _ m _ => m = n
  | _ => false

/-- The call that replaced or took a value, when the observation is such a write. -/
def Obs.taker : Obs → Option Call
  | .update r _ _ _ => some r
  | .remove r _ _ => some r
  | _ => none

/-- The writes of cell `n`, in order, and what it holds after them: a value put in
by an `insert`, every further one by an `update` that names the value it
replaced, and at most once a `remove`, after which nothing follows. -/
inductive Life (n : ℕ) : List Obs → Option ℕ → Prop
  | fresh : Life n [] none
  | insert (r : Call) (v : ℕ) (hv : v ≠ 0) : Life n [.insert r n v] (some v)
  | update (r : Call) {l : List Obs} {old new : ℕ} (h : Life n l (some old)) (hold : old ≠ 0)
      (hnew : new ≠ 0) : Life n (l ++ [.update r n old new]) (some new)
  | remove (r : Call) {l : List Obs} {old : ℕ} (h : Life n l (some old)) (hold : old ≠ 0) :
      Life n (l ++ [.remove r n old]) (some 0)

/-- The history tells which call wrote which value, and what each call returned;
`val` is what the cells hold in the end. -/
structure Faithful (H : List Obs) (val : ℕ → Option ℕ) : Prop where
  /-- every cell goes through a life -/
  life : ∀ n, Life n (H.filter (Obs.writes n)) (val n)
  /-- only an `add` or a `put` fills a cell -/
  inserter : ∀ r n v, Obs.insert r n v ∈ H → Obs.start r .add ∈ H ∨ Obs.start r .put ∈ H
  /-- only a `put` updates a cell, and it returns the value it replaced -/
  updater : ∀ r n old new, Obs.update r n old new ∈ H →
    Obs.start r .put ∈ H ∧ ∀ v, Obs.ret r v ∈ H ↔ v = old
  /-- only a `remove` empties a cell, and it returns the value it took -/
  remover : ∀ r n old, Obs.remove r n old ∈ H →
    Obs.start r .remove ∈ H ∧ Obs.found r n ∈ H ∧ ∀ v, Obs.ret r v ∈ H → v = old
  /-- no call replaces or takes two values -/
  once : (H.filterMap Obs.taker).Nodup
  /-- a `remove` that found a cell and did not empty it returns `0` -/
  loser : ∀ r n, Obs.found r n ∈ H → (∀ old, Obs.remove r n old ∉ H) →
    ∀ v, Obs.ret r v ∈ H → v = 0
  /-- a `put` that returns a value replaced it -/
  put_returns : ∀ r v, Obs.start r .put ∈ H → Obs.ret r v ∈ H → v ≠ 0 →
    ∃ n new, Obs.update r n v new ∈ H
  /-- a `remove` that returns a value took it -/
  remove_returns : ∀ r v, Obs.start r .remove ∈ H → Obs.ret r v ∈ H → v ≠ 0 →
    ∃ n, Obs.remove r n v ∈ H

/-! ## The automaton -/

/-- How far a call has come. -/
inductive Phase where
  | idle
  | running (k : Kind)
  | found (n : ℕ)
  | marked (n : ℕ)
  | updated (old : ℕ)
  | removed (old : ℕ)
  | returned (v : ℕ)
  deriving DecidableEq, Repr

/-- The cells: what each holds, who marked it, and the phase of every call. -/
structure Cells where
  val : ℕ → Option ℕ
  owner : ℕ → Option Call
  phase : Call → Phase

/-- Nothing is filled and nothing was called. -/
def Cells.init : Cells where
  val := fun _ => none
  owner := fun _ => none
  phase := fun _ => .idle

namespace Cells

/-- Call `r` moves on to phase `p`. -/
def enter (a : Cells) (r : Call) (p : Phase) : Cells :=
  { a with phase := Function.update a.phase r p }

/-- Cell `n` now holds `v`. -/
def write (a : Cells) (n v : ℕ) : Cells :=
  { a with val := Function.update a.val n (some v) }

/-- Call `r` marks cell `n`. -/
def claim (a : Cells) (r : Call) (n : ℕ) : Cells :=
  { a with owner := Function.update a.owner n (some r) }

/-- A phase is no value. -/
@[simp] theorem enter_val (a : Cells) (r : Call) (p : Phase) : (a.enter r p).val = a.val := rfl
/-- Nor is it an owner. -/
@[simp] theorem enter_owner (a : Cells) (r : Call) (p : Phase) :
    (a.enter r p).owner = a.owner := rfl
/-- The phase that was entered. -/
@[simp] theorem enter_phase (a : Cells) (r : Call) (p : Phase) :
    (a.enter r p).phase = Function.update a.phase r p := rfl
/-- The value that was written. -/
@[simp] theorem write_val (a : Cells) (n v : ℕ) :
    (a.write n v).val = Function.update a.val n (some v) := rfl
/-- A value is no owner. -/
@[simp] theorem write_owner (a : Cells) (n v : ℕ) : (a.write n v).owner = a.owner := rfl
/-- Nor is it a phase. -/
@[simp] theorem write_phase (a : Cells) (n v : ℕ) : (a.write n v).phase = a.phase := rfl
/-- A claim is no value. -/
@[simp] theorem claim_val (a : Cells) (r : Call) (n : ℕ) : (a.claim r n).val = a.val := rfl
/-- The claim that was made. -/
@[simp] theorem claim_owner (a : Cells) (r : Call) (n : ℕ) :
    (a.claim r n).owner = Function.update a.owner n (some r) := rfl
/-- A claim is no phase. -/
@[simp] theorem claim_phase (a : Cells) (r : Call) (n : ℕ) : (a.claim r n).phase = a.phase := rfl

end Cells

/-- A call in phase `p` may return `v`. -/
def Phase.mayReturn (v : ℕ) : Phase → Bool
  | .running .read => true
  | .running .add => true
  | .running .put => v = 0
  | .running .remove => v = 0
  | .found _ => v = 0
  | .updated old => v = old
  | .removed old => v = old
  | _ => false

/-- The lawful observations. -/
def accept (a : Cells) : Obs → Option Cells
  | .start r k => if a.phase r = .idle then some (a.enter r (.running k)) else none
  | .insert r n v =>
    if (a.phase r = .running .add ∨ a.phase r = .running .put) ∧ a.val n = none ∧ v ≠ 0 then
      some (a.write n v)
    else none
  | .update r n old new =>
    if a.phase r = .running .put ∧ a.val n = some old ∧ old ≠ 0 ∧ new ≠ 0 then
      some ((a.write n new).enter r (.updated old))
    else none
  | .found r n =>
    if a.phase r = .running .remove ∧ a.val n ≠ none then some (a.enter r (.found n)) else none
  | .mark r n =>
    if a.phase r = .found n ∧ a.owner n = none then some ((a.claim r n).enter r (.marked n))
    else none
  | .remove r n old =>
    if a.phase r = .marked n ∧ a.val n = some old then
      some ((a.write n 0).enter r (.removed old))
    else none
  | .ret r v => if (a.phase r).mayReturn v then some (a.enter r (.returned v)) else none

/-! ## Accepted histories are faithful -/

/-- What the history holds of a call that has come as far as `p`. -/
def CallSpec (H : List Obs) (r : Call) : Phase → Prop
  | .idle => ∀ o ∈ H, o.call ≠ r
  | .running k => (∀ k', Obs.start r k' ∈ H ↔ k' = k) ∧ (∀ n, Obs.found r n ∉ H) ∧
      (∀ n old new, Obs.update r n old new ∉ H) ∧ (∀ n old, Obs.remove r n old ∉ H) ∧
      ∀ v, Obs.ret r v ∉ H
  | .found n => (∀ k', Obs.start r k' ∈ H ↔ k' = .remove) ∧ (∀ m, Obs.found r m ∈ H ↔ m = n) ∧
      (∀ n old new, Obs.update r n old new ∉ H) ∧ (∀ n old, Obs.remove r n old ∉ H) ∧
      ∀ v, Obs.ret r v ∉ H
  | .marked n => (∀ k', Obs.start r k' ∈ H ↔ k' = .remove) ∧ (∀ m, Obs.found r m ∈ H ↔ m = n) ∧
      (∀ n old new, Obs.update r n old new ∉ H) ∧ (∀ n old, Obs.remove r n old ∉ H) ∧
      ∀ v, Obs.ret r v ∉ H
  | .updated old => (∀ k', Obs.start r k' ∈ H ↔ k' = .put) ∧ (∀ n, Obs.found r n ∉ H) ∧
      (∃ n new, Obs.update r n old new ∈ H) ∧
      (∀ n old' new, Obs.update r n old' new ∈ H → old' = old) ∧
      (∀ n old, Obs.remove r n old ∉ H) ∧ ∀ v, Obs.ret r v ∉ H
  | .removed old => (∀ k', Obs.start r k' ∈ H ↔ k' = .remove) ∧
      (∀ n old new, Obs.update r n old new ∉ H) ∧
      (∃ n, Obs.remove r n old ∈ H ∧ ∀ m, Obs.found r m ∈ H ↔ m = n) ∧
      (∀ m old', Obs.remove r m old' ∈ H → old' = old ∧ Obs.found r m ∈ H) ∧
      ∀ v, Obs.ret r v ∉ H
  | .returned v => (∀ w, Obs.ret r w ∈ H ↔ w = v) ∧
      (∀ n old new, Obs.update r n old new ∈ H → old = v ∧ Obs.start r .put ∈ H) ∧
      (∀ n old, Obs.remove r n old ∈ H → old = v ∧ Obs.start r .remove ∈ H ∧ Obs.found r n ∈ H) ∧
      (∀ n, Obs.found r n ∈ H → v = 0 ∨ Obs.remove r n v ∈ H) ∧
      (Obs.start r .put ∈ H → v = 0 ∨ ∃ n new, Obs.update r n v new ∈ H) ∧
      (Obs.start r .remove ∈ H → v = 0 ∨ ∃ n, Obs.remove r n v ∈ H)

/-- What an accepted history says. -/
structure Accepted (H : List Obs) (a : Cells) : Prop where
  life : ∀ n, Life n (H.filter (Obs.writes n)) (a.val n)
  call : ∀ r, CallSpec H r (a.phase r)
  inserter : ∀ r n v, Obs.insert r n v ∈ H → Obs.start r .add ∈ H ∨ Obs.start r .put ∈ H
  once : (H.filterMap Obs.taker).Nodup
  /-- a cell that nobody marked, or whose marker did not take its value yet, is not empty -/
  filled : ∀ n, a.val n = some 0 → ∃ r, a.owner n = some r ∧ a.phase r ≠ .marked n
  marked : ∀ r n, a.phase r = .marked n → a.owner n = some r

/-- Only what is observed of the call itself matters to it. -/
theorem CallSpec.append {H : List Obs} {r : Call} {p : Phase} {o : Obs} (h : CallSpec H r p)
    (ho : o.call ≠ r) : CallSpec (H ++ [o]) r p := by
  have hmem : ∀ o' : Obs, o'.call = r → (o' ∈ H ++ [o] ↔ o' ∈ H) := by
    intro o' ho'
    have hne : o' ≠ o := fun heq => ho (heq ▸ ho')
    simp [hne]
  have hstart := fun k => hmem (.start r k) rfl
  have hfound := fun n => hmem (.found r n) rfl
  have hupdate := fun n old new => hmem (.update r n old new) rfl
  have hremove := fun n old => hmem (.remove r n old) rfl
  have hret := fun v => hmem (.ret r v) rfl
  cases p with
  | idle =>
    intro o' ho'
    rcases List.mem_append.mp ho' with hH | hH
    · exact h o' hH
    · rw [List.mem_singleton.mp hH]
      exact ho
  | running k => simpa only [CallSpec, hstart, hfound, hupdate, hremove, hret] using h
  | found n => simpa only [CallSpec, hstart, hfound, hupdate, hremove, hret] using h
  | marked n => simpa only [CallSpec, hstart, hfound, hupdate, hremove, hret] using h
  | updated old => simpa only [CallSpec, hstart, hfound, hupdate, hremove, hret] using h
  | removed old => simpa only [CallSpec, hstart, hfound, hupdate, hremove, hret] using h
  | returned v => simpa only [CallSpec, hstart, hfound, hupdate, hremove, hret] using h

/-- The calls after one observation: only the observed call has moved. -/
theorem callSpec_step {H : List Obs} {a a' : Cells} {o : Obs} (hcall : ∀ r, CallSpec H r (a.phase r))
    (hframe : ∀ r, r ≠ o.call → a'.phase r = a.phase r)
    (hself : CallSpec (H ++ [o]) o.call (a'.phase o.call)) (r : Call) :
    CallSpec (H ++ [o]) r (a'.phase r) := by
  by_cases hr : r = o.call
  · rw [hr]
    exact hself
  · rw [hframe r hr]
    exact (hcall r).append (Ne.symm hr)

/-- An observation that writes nothing leaves the lives of the cells. -/
theorem filter_writes_append_of_not {H : List Obs} {o : Obs} {n : ℕ} (h : o.writes n = false) :
    (H ++ [o]).filter (Obs.writes n) = H.filter (Obs.writes n) := by
  simp [List.filter_append, h]

/-- A store comes last. -/
theorem filter_writes_append {H : List Obs} {o : Obs} {n : ℕ} (h : o.writes n = true) :
    (H ++ [o]).filter (Obs.writes n) = H.filter (Obs.writes n) ++ [o] := by
  simp [List.filter_append, h]

/-- The cell that `o` does not write keeps its life. -/
theorem Life.frame {H : List Obs} {val val' : ℕ → Option ℕ} {o : Obs} {n : ℕ}
    (h : Life n (H.filter (Obs.writes n)) (val n)) (ho : o.writes n = false)
    (hval : val' n = val n) : Life n ((H ++ [o]).filter (Obs.writes n)) (val' n) := by
  rw [filter_writes_append_of_not ho, hval]
  exact h

/-- An unfilled cell was never written. -/
theorem Life.none_nil {n : ℕ} {l : List Obs} (h : Life n l none) : l = [] := by
  cases h
  rfl

/-- Nothing has happened at the start. -/
theorem accepted_nil : Accepted [] Cells.init where
  life := fun _ => .fresh
  call := fun _ o ho => absurd ho List.not_mem_nil
  inserter := fun _ _ _ h => absurd h List.not_mem_nil
  once := List.nodup_nil
  filled := fun _ h => absurd h (by simp [Cells.init])
  marked := fun _ _ h => absurd h (by simp [Cells.init])

/-! ### One observation -/

section Step

variable {H : List Obs} {a a' : Cells} {o : Obs} {r : Call}

/-- When a call may start. -/
theorem accept_start {k : Kind} : accept a (.start r k) = some a'
    ↔ a.phase r = .idle ∧ a' = a.enter r (.running k) := by
  simp [accept, eq_comm]

/-- When a node may be inserted. -/
theorem accept_insert {n v : ℕ} : accept a (.insert r n v) = some a'
    ↔ ((a.phase r = .running .add ∨ a.phase r = .running .put) ∧ a.val n = none ∧ v ≠ 0)
      ∧ a' = a.write n v := by
  simp [accept, eq_comm]

/-- When a value may be updated. -/
theorem accept_update {n old new : ℕ} : accept a (.update r n old new) = some a'
    ↔ (a.phase r = .running .put ∧ a.val n = some old ∧ old ≠ 0 ∧ new ≠ 0)
      ∧ a' = (a.write n new).enter r (.updated old) := by
  simp [accept, eq_comm]

/-- When a removal may find a node. -/
theorem accept_found {n : ℕ} : accept a (.found r n) = some a'
    ↔ (a.phase r = .running .remove ∧ a.val n ≠ none) ∧ a' = a.enter r (.found n) := by
  simp [accept, eq_comm]

/-- When a node may be marked. -/
theorem accept_mark {n : ℕ} : accept a (.mark r n) = some a'
    ↔ (a.phase r = .found n ∧ a.owner n = none) ∧ a' = (a.claim r n).enter r (.marked n) := by
  simp [accept, eq_comm]

/-- When a value may be swapped out. -/
theorem accept_remove {n old : ℕ} : accept a (.remove r n old) = some a'
    ↔ (a.phase r = .marked n ∧ a.val n = some old) ∧ a' = (a.write n 0).enter r (.removed old) := by
  simp [accept, eq_comm]

/-- When a call may return. -/
theorem accept_ret {v : ℕ} : accept a (.ret r v) = some a'
    ↔ (a.phase r).mayReturn v = true ∧ a' = a.enter r (.returned v) := by
  simp [accept, @eq_comm _ a']

/-- An observation moves no other call. -/
theorem accept_phase (hacc : accept a o = some a') (hr : r ≠ o.call) :
    a'.phase r = a.phase r := by
  cases o with
  | start r' k =>
    obtain ⟨-, rfl⟩ := accept_start.mp hacc
    exact Function.update_of_ne hr ..
  | insert r' n v =>
    obtain ⟨-, rfl⟩ := accept_insert.mp hacc
    rfl
  | update r' n old new =>
    obtain ⟨-, rfl⟩ := accept_update.mp hacc
    exact Function.update_of_ne hr ..
  | found r' n =>
    obtain ⟨-, rfl⟩ := accept_found.mp hacc
    exact Function.update_of_ne hr ..
  | mark r' n =>
    obtain ⟨-, rfl⟩ := accept_mark.mp hacc
    exact Function.update_of_ne hr ..
  | remove r' n old =>
    obtain ⟨-, rfl⟩ := accept_remove.mp hacc
    exact Function.update_of_ne hr ..
  | ret r' v =>
    obtain ⟨-, rfl⟩ := accept_ret.mp hacc
    exact Function.update_of_ne hr ..

/-- A cell that nobody took the value of is not empty. -/
theorem Accepted.ne_zero (h : Accepted H a) {n v : ℕ} (hp : a.phase r = .marked n)
    (hv : a.val n = some v) : v ≠ 0 := by
  rintro rfl
  obtain ⟨r', ho, hne⟩ := h.filled n hv
  rw [h.marked r n hp] at ho
  cases ho
  exact hne hp

/-- The values of a node form a chain. -/
theorem Accepted.life_step (h : Accepted H a) (hacc : accept a o = some a') (n : ℕ) :
    Life n ((H ++ [o]).filter (Obs.writes n)) (a'.val n) := by
  by_cases hw : o.writes n = true
  · rw [filter_writes_append hw]
    have hlife := h.life n
    cases o with
    | insert r m v =>
      obtain ⟨⟨-, hnone, hv⟩, rfl⟩ := accept_insert.mp hacc
      obtain rfl : m = n := by simpa [Obs.writes] using hw
      rw [hnone] at hlife
      rw [hlife.none_nil, Cells.write_val, Function.update_self]
      exact .insert r v hv
    | update r m old new =>
      obtain ⟨⟨-, hsome, hold, hnew⟩, rfl⟩ := accept_update.mp hacc
      obtain rfl : m = n := by simpa [Obs.writes] using hw
      rw [hsome] at hlife
      rw [Cells.enter_val, Cells.write_val, Function.update_self]
      exact .update r hlife hold hnew
    | remove r m old =>
      obtain ⟨⟨hp, hsome⟩, rfl⟩ := accept_remove.mp hacc
      obtain rfl : m = n := by simpa [Obs.writes] using hw
      have hold : old ≠ 0 := h.ne_zero hp hsome
      rw [hsome] at hlife
      rw [Cells.enter_val, Cells.write_val, Function.update_self]
      exact .remove r hlife hold
    | _ => simp [Obs.writes] at hw
  · refine (h.life n).frame (by simpa using hw) ?_
    cases o with
    | start r k =>
      obtain ⟨-, rfl⟩ := accept_start.mp hacc
      rfl
    | insert r m v =>
      obtain ⟨-, rfl⟩ := accept_insert.mp hacc
      exact Function.update_of_ne (fun heq => hw (by simp [Obs.writes, heq])) ..
    | update r m old new =>
      obtain ⟨-, rfl⟩ := accept_update.mp hacc
      exact Function.update_of_ne (fun heq => hw (by simp [Obs.writes, heq])) ..
    | found r m =>
      obtain ⟨-, rfl⟩ := accept_found.mp hacc
      rfl
    | mark r m =>
      obtain ⟨-, rfl⟩ := accept_mark.mp hacc
      rfl
    | remove r m old =>
      obtain ⟨-, rfl⟩ := accept_remove.mp hacc
      exact Function.update_of_ne (fun heq => hw (by simp [Obs.writes, heq])) ..
    | ret r v =>
      obtain ⟨-, rfl⟩ := accept_ret.mp hacc
      rfl

/-- A call returns what it did. -/
theorem Accepted.call_step (h : Accepted H a) (hacc : accept a o = some a') (r : Call) :
    CallSpec (H ++ [o]) r (a'.phase r) := by
  apply callSpec_step h.call (fun r hr => accept_phase hacc hr)
  have hself := h.call o.call
  cases o with
  | start r k =>
    obtain ⟨hp, rfl⟩ := accept_start.mp hacc
    simp only [Obs.call, hp, Cells.enter_phase, Function.update_self] at hself ⊢
    have hno : ∀ o : Obs, o.call = r → o ∉ H := fun o ho hmem => hself o hmem ho
    have hstart := fun k => hno (.start r k) rfl
    have hfound := fun n => hno (.found r n) rfl
    have hupdate := fun n old new => hno (.update r n old new) rfl
    have hremove := fun n old => hno (.remove r n old) rfl
    have hret := fun v => hno (.ret r v) rfl
    simp [CallSpec, hstart, hfound, hupdate, hremove, hret]
  | insert r n v =>
    obtain ⟨⟨hp, -⟩, rfl⟩ := accept_insert.mp hacc
    simp only [Obs.call, Cells.write_phase] at hself ⊢
    rcases hp with hp | hp
    · rw [hp] at hself ⊢
      simpa [CallSpec] using hself
    · rw [hp] at hself ⊢
      simpa [CallSpec] using hself
  | update r n old new =>
    obtain ⟨⟨hp, -⟩, rfl⟩ := accept_update.mp hacc
    simp only [Obs.call, hp, Cells.enter_phase, Function.update_self] at hself ⊢
    obtain ⟨hstart, hfound, hupdate, hremove, hret⟩ := hself
    simp +contextual [CallSpec, hstart, hfound, hupdate, hremove, hret]
  | found r n =>
    obtain ⟨⟨hp, -⟩, rfl⟩ := accept_found.mp hacc
    simp only [Obs.call, hp, Cells.enter_phase, Function.update_self] at hself ⊢
    obtain ⟨hstart, hfound, hupdate, hremove, hret⟩ := hself
    simp [CallSpec, hstart, hfound, hupdate, hremove, hret]
  | mark r n =>
    obtain ⟨⟨hp, -⟩, rfl⟩ := accept_mark.mp hacc
    simp only [Obs.call, hp, Cells.enter_phase, Function.update_self] at hself ⊢
    obtain ⟨hstart, hfound, hupdate, hremove, hret⟩ := hself
    simp [CallSpec, hstart, hfound, hupdate, hremove, hret]
  | remove r n old =>
    obtain ⟨⟨hp, -⟩, rfl⟩ := accept_remove.mp hacc
    simp only [Obs.call, hp, Cells.enter_phase, Function.update_self] at hself ⊢
    obtain ⟨hstart, hfound, hupdate, hremove, hret⟩ := hself
    simp [CallSpec, hstart, hfound, hupdate, hremove, hret]
  | ret r v =>
    obtain ⟨hp, rfl⟩ := accept_ret.mp hacc
    simp only [Obs.call, Cells.enter_phase, Function.update_self] at hself ⊢
    cases hphase : a.phase r with
    | running k =>
      rw [hphase] at hself hp
      obtain ⟨hstart, hfound, hupdate, hremove, hret⟩ := hself
      simp only [CallSpec]
      cases k <;> simp_all [Phase.mayReturn]
    | found n =>
      rw [hphase] at hself hp
      obtain ⟨hstart, hfound, hupdate, hremove, hret⟩ := hself
      obtain rfl : v = 0 := by simpa [Phase.mayReturn] using hp
      simp [CallSpec, hstart, hfound, hupdate, hremove, hret]
    | updated old =>
      rw [hphase] at hself hp
      obtain ⟨hstart, hfound, ⟨n, new, hupdate⟩, hunique, hremove, hret⟩ := hself
      obtain rfl : v = old := by simpa [Phase.mayReturn] using hp
      simp only [CallSpec, List.mem_append, List.mem_singleton]
      simp only [hstart, hfound, hremove, hret]
      grind
    | removed old =>
      rw [hphase] at hself hp
      obtain ⟨hstart, hupdate, ⟨n, hremove, hfound⟩, hunique, hret⟩ := hself
      obtain rfl : v = old := by simpa [Phase.mayReturn] using hp
      simp only [CallSpec, List.mem_append, List.mem_singleton]
      simp only [hstart, hupdate, hret]
      grind
    | _ =>
      rw [hphase] at hp
      cases hp

/-- The only call that writes a value twice would have been in two phases at once. -/
theorem Accepted.once_step (h : Accepted H a) (hacc : accept a o = some a') :
    ((H ++ [o]).filterMap Obs.taker).Nodup := by
  rw [List.filterMap_append]
  have hnew : ∀ r, (∀ n old new, Obs.update r n old new ∉ H) → (∀ n old, Obs.remove r n old ∉ H) →
      r ∉ H.filterMap Obs.taker := by
    intro r hu hr hmem
    obtain ⟨o', ho', htak⟩ := List.mem_filterMap.mp hmem
    cases o' with
    | update r' n old new =>
      cases htak
      exact hu n old new ho'
    | remove r' n old =>
      cases htak
      exact hr n old ho'
    | _ => cases htak
  cases o with
  | update r n old new =>
    obtain ⟨⟨hp, -⟩, -⟩ := accept_update.mp hacc
    have hself := h.call r
    rw [hp] at hself
    have hr : r ∉ H.filterMap Obs.taker := hnew r hself.2.2.1 hself.2.2.2.1
    exact h.once.append (List.nodup_singleton r) (List.disjoint_singleton.mpr hr)
  | remove r n old =>
    obtain ⟨⟨hp, -⟩, -⟩ := accept_remove.mp hacc
    have hself := h.call r
    rw [hp] at hself
    have hr : r ∉ H.filterMap Obs.taker := hnew r hself.2.2.1 hself.2.2.2.1
    exact h.once.append (List.nodup_singleton r) (List.disjoint_singleton.mpr hr)
  | _ => simpa [List.filterMap_cons, Obs.taker] using h.once

/-- A node is inserted by a call that may insert. -/
theorem Accepted.inserter_step (h : Accepted H a) (hacc : accept a o = some a') (r : Call)
    (n v : ℕ) (hmem : Obs.insert r n v ∈ H ++ [o]) :
    Obs.start r .add ∈ H ++ [o] ∨ Obs.start r .put ∈ H ++ [o] := by
  rcases List.mem_append.mp hmem with hH | ho
  · rcases h.inserter r n v hH with hs | hs
    · exact Or.inl (List.mem_append_left _ hs)
    · exact Or.inr (List.mem_append_left _ hs)
  · obtain rfl : o = .insert r n v := (List.mem_singleton.mp ho).symm
    obtain ⟨⟨hp, -⟩, -⟩ := accept_insert.mp hacc
    have hself := h.call r
    rcases hp with hp | hp
    · rw [hp] at hself
      exact Or.inl (List.mem_append_left _ ((hself.1 _).mpr rfl))
    · rw [hp] at hself
      exact Or.inr (List.mem_append_left _ ((hself.1 _).mpr rfl))

/-- A call that enters another phase does not come to have marked a cell. -/
theorem enter_phase_marked {p : Phase} {r' : Call} {n : ℕ} (hp : p ≠ .marked n)
    (h : (a.enter r p).phase r' = .marked n) : a.phase r' = .marked n := by
  by_cases hr : r' = r
  · rw [hr, Cells.enter_phase, Function.update_self] at h
    exact absurd h hp
  · rwa [Cells.enter_phase, Function.update_of_ne hr] at h

/-- A node without a value was claimed, also after a change of phase. -/
theorem Accepted.filled_enter (h : Accepted H a) {p : Phase} {n : ℕ} (hp : p ≠ .marked n)
    (hn : a.val n = some 0) :
    ∃ r', a.owner n = some r' ∧ (a.enter r p).phase r' ≠ .marked n := by
  obtain ⟨r', ho, hne⟩ := h.filled n hn
  exact ⟨r', ho, fun hm => hne (enter_phase_marked hp hm)⟩

/-- So it is after a step. -/
theorem Accepted.filled_step (h : Accepted H a) (hacc : accept a o = some a') (n : ℕ)
    (hn : a'.val n = some 0) : ∃ r, a'.owner n = some r ∧ a'.phase r ≠ .marked n := by
  cases o with
  | start r k =>
    obtain ⟨-, rfl⟩ := accept_start.mp hacc
    exact h.filled_enter (by simp) hn
  | insert r m v =>
    obtain ⟨⟨-, -, hv⟩, rfl⟩ := accept_insert.mp hacc
    apply h.filled n
    by_cases hm : n = m
    · rw [hm, Cells.write_val, Function.update_self] at hn
      cases hn
      exact absurd rfl hv
    · rwa [Cells.write_val, Function.update_of_ne hm] at hn
  | update r m old new =>
    obtain ⟨⟨-, -, -, hnew⟩, rfl⟩ := accept_update.mp hacc
    apply h.filled_enter (by simp)
    by_cases hm : n = m
    · rw [hm, Cells.enter_val, Cells.write_val, Function.update_self] at hn
      cases hn
      exact absurd rfl hnew
    · rwa [Cells.enter_val, Cells.write_val, Function.update_of_ne hm] at hn
  | found r m =>
    obtain ⟨-, rfl⟩ := accept_found.mp hacc
    exact h.filled_enter (by simp) hn
  | mark r m =>
    obtain ⟨⟨-, hown⟩, rfl⟩ := accept_mark.mp hacc
    -- an empty cell has been marked before
    obtain ⟨r', ho, hne⟩ := h.filled n hn
    have hnm : n ≠ m := by
      rintro rfl
      rw [hown] at ho
      cases ho
    refine ⟨r', (Function.update_of_ne hnm ..).trans ho, fun hm => hne ?_⟩
    refine enter_phase_marked (fun heq => hnm ?_) hm
    cases heq
    rfl
  | remove r m old =>
    obtain ⟨⟨hp, -⟩, rfl⟩ := accept_remove.mp hacc
    by_cases hm : n = m
    · subst hm
      refine ⟨r, h.marked r n hp, ?_⟩
      rw [Cells.enter_phase, Function.update_self]
      simp
    · apply h.filled_enter (by simp)
      rwa [Cells.enter_val, Cells.write_val, Function.update_of_ne hm] at hn
  | ret r v =>
    obtain ⟨-, rfl⟩ := accept_ret.mp hacc
    exact h.filled_enter (by simp) hn

/-- The call that marked a node has claimed it. -/
theorem Accepted.marked_step (h : Accepted H a) (hacc : accept a o = some a') (r : Call) (n : ℕ)
    (hm : a'.phase r = .marked n) : a'.owner n = some r := by
  cases o with
  | start r' k =>
    obtain ⟨-, rfl⟩ := accept_start.mp hacc
    exact h.marked r n (enter_phase_marked (by simp) hm)
  | insert r' m v =>
    obtain ⟨-, rfl⟩ := accept_insert.mp hacc
    exact h.marked r n hm
  | update r' m old new =>
    obtain ⟨-, rfl⟩ := accept_update.mp hacc
    exact h.marked r n (enter_phase_marked (by simp) hm)
  | found r' m =>
    obtain ⟨-, rfl⟩ := accept_found.mp hacc
    exact h.marked r n (enter_phase_marked (by simp) hm)
  | mark r' m =>
    obtain ⟨⟨-, hown⟩, rfl⟩ := accept_mark.mp hacc
    by_cases hr : r = r'
    · rw [hr, Cells.enter_phase, Function.update_self] at hm
      cases hm
      rw [hr]
      exact Function.update_self ..
    · rw [Cells.enter_phase, Function.update_of_ne hr] at hm
      have ho := h.marked r n hm
      have hnm : n ≠ m := by
        rintro rfl
        rw [hown] at ho
        cases ho
      exact (Function.update_of_ne hnm ..).trans ho
  | remove r' m old =>
    obtain ⟨-, rfl⟩ := accept_remove.mp hacc
    exact h.marked r n (enter_phase_marked (by simp) hm)
  | ret r' v =>
    obtain ⟨-, rfl⟩ := accept_ret.mp hacc
    exact h.marked r n (enter_phase_marked (by simp) hm)

/-- An accepted observation extends an accepted history. -/
theorem Accepted.step (h : Accepted H a) (hacc : accept a o = some a') :
    Accepted (H ++ [o]) a' where
  life := h.life_step hacc
  call := h.call_step hacc
  inserter := h.inserter_step hacc
  once := h.once_step hacc
  filled := h.filled_step hacc
  marked := h.marked_step hacc

end Step

/-- Every history that the automaton accepts. -/
theorem accepted_of_run {H : List Obs} {a : Cells} (h : run accept Cells.init H = some a) :
    Accepted H a := by
  induction H using List.reverseRecOn generalizing a with
  | nil =>
    cases h
    exact accepted_nil
  | append_singleton H o ih =>
    obtain ⟨a₁, h₁, h₂⟩ := run_append_eq_some.mp h
    obtain ⟨a₂, hacc, hnil⟩ := run_cons_eq_some.mp h₂
    cases hnil
    exact (ih h₁).step hacc

/-- **Accepted histories are faithful**, once no call stands between an update and
its return. -/
theorem accept_faithful {H : List Obs} {a : Cells} (h : run accept Cells.init H = some a)
    (hset : ∀ r old, a.phase r ≠ .updated old) : Faithful H a.val := by
  have hacc := accepted_of_run h
  refine
    { life := hacc.life, inserter := hacc.inserter, updater := ?_, remover := ?_,
      once := hacc.once, loser := ?_, put_returns := ?_, remove_returns := ?_ }
  · intro r n old new hmem
    have hcall := hacc.call r
    have hs := hset r
    cases hp : a.phase r <;> simp only [hp, CallSpec] at hcall hs <;> grind [Obs.call]
  · intro r n old hmem
    have hcall := hacc.call r
    cases hp : a.phase r <;> simp only [hp, CallSpec] at hcall <;> grind [Obs.call]
  · intro r n hmem hno v hret
    have hcall := hacc.call r
    cases hp : a.phase r <;> simp only [hp, CallSpec] at hcall <;> grind [Obs.call]
  · intro r v hmem hret hv
    have hcall := hacc.call r
    cases hp : a.phase r <;> simp only [hp, CallSpec] at hcall <;> grind [Obs.call]
  · intro r v hmem hret hv
    have hcall := hacc.call r
    cases hp : a.phase r <;> simp only [hp, CallSpec] at hcall <;> grind [Obs.call]

/-! ## The history of a program -/

section Program

variable {σ κ ι : Type*}

/-- The calls of each thread, after one event. -/
def countCall (begins : ι → Bool) (calls : ℕ → ℕ) (e : ℕ × ι) : ℕ → ℕ :=
  if begins e.2 then Function.update calls e.1 (calls e.1 + 1) else calls

/-- What is observed along a run: `obs` says what one step shows of the call that
takes it. -/
def history (prog : ℕ → σ → κ → ι → Option (σ × κ)) (begins : ι → Bool)
    (obs : Call → σ → κ → ι → κ → List Obs) : (ℕ → ℕ) → Conf σ κ → List (ℕ × ι) → List Obs
  | _, _, [] => []
  | calls, c, e :: es =>
    let calls' := countCall begins calls e
    match interleave prog c e with
    | some c' =>
      obs (e.1, calls' e.1) c.shared (c.thread e.1) e.2 (c'.thread e.1)
        ++ history prog begins obs calls' c' es
    | none => []

/-- **The simulation rule.**  `Sim` ties the memory to the cells, `Loc` the place of
a thread to the phase of its current call.  Every step that meets `ok` shows
observations of its own call only, which the automaton accepts; what the other
threads do (`Ext`) leaves a place as it is. -/
structure Simulates (prog : ℕ → σ → κ → ι → Option (σ × κ)) (begins : ι → Bool)
    (obs : Call → σ → κ → ι → κ → List Obs) (ok : ι → Prop) (Sim : Cells → σ → Prop)
    (Loc : Phase → σ → κ → Prop) (Ext : σ → σ → Prop) : Prop where
  own : ∀ r s k i k', ∀ o ∈ obs r s k i k', o.call = r
  step : ∀ r s k i s' k' a, Sim a s → ok i → prog r.1 s k i = some (s', k') →
    (if begins i then a.phase r = .idle else Loc (a.phase r) s k) →
    ∃ a', run accept a (obs r s k i k') = some a' ∧ Sim a' s' ∧ Loc (a'.phase r) s' k' ∧ Ext s s'
  stable : ∀ p s s' k, Ext s s' → Loc p s k → Loc p s' k
  settled : ∀ p s k old, Loc p s k → p ≠ .updated old

/-- The cells and a configuration in which thread `t` is in its call number
`calls t`. -/
structure Tied (Sim : Cells → σ → Prop) (Loc : Phase → σ → κ → Prop) (calls : ℕ → ℕ)
    (a : Cells) (c : Conf σ κ) : Prop where
  sim : Sim a c.shared
  loc : ∀ t, Loc (a.phase (t, calls t)) c.shared (c.thread t)
  future : ∀ t j, calls t < j → a.phase (t, j) = .idle
  settled : ∀ r old, a.phase r ≠ .updated old

/-- Observations of one call move no other call. -/
theorem run_accept_phase {a a' : Cells} {H : List Obs} {r r' : Call}
    (hown : ∀ o ∈ H, o.call = r) (hr : r' ≠ r) (h : run accept a H = some a') :
    a'.phase r' = a.phase r' := by
  induction H generalizing a with
  | nil =>
    cases h
    rfl
  | cons o H ih =>
    obtain ⟨a₁, hacc, hrun⟩ := run_cons_eq_some.mp h
    have ho : o.call = r := hown o List.mem_cons_self
    rw [ih (fun o' ho' => hown o' (List.mem_cons_of_mem o ho')) hrun]
    exact accept_phase hacc (ho ▸ hr)

variable {prog : ℕ → σ → κ → ι → Option (σ × κ)} {begins : ι → Bool}
  {obs : Call → σ → κ → ι → κ → List Obs} {ok : ι → Prop} {Sim : Cells → σ → Prop}
  {Loc : Phase → σ → κ → Prop} {Ext : σ → σ → Prop}

/-- The calls of the other threads. -/
theorem countCall_of_ne {calls : ℕ → ℕ} {e : ℕ × ι} {t : ℕ} (ht : t ≠ e.1) :
    countCall begins calls e t = calls t := by
  unfold countCall
  split
  · exact Function.update_of_ne ht ..
  · rfl

/-- Calls are counted upwards. -/
theorem le_countCall (calls : ℕ → ℕ) (e : ℕ × ι) (t : ℕ) :
    calls t ≤ countCall begins calls e t := by
  by_cases ht : t = e.1
  · subst ht
    unfold countCall
    split
    · rw [Function.update_self]
      exact Nat.le_succ _
    · exact le_rfl
  · rw [countCall_of_ne ht]

/-- One step of the program is a block of accepted observations. -/
theorem Simulates.tied_step (h : Simulates prog begins obs ok Sim Loc Ext) {calls : ℕ → ℕ}
    {a : Cells} {c c' : Conf σ κ} {e : ℕ × ι} (hc : Tied Sim Loc calls a c) (hok : ok e.2)
    (hstep : interleave prog c e = some c') :
    ∃ a', run accept a (obs (e.1, countCall begins calls e e.1) c.shared (c.thread e.1) e.2
        (c'.thread e.1)) = some a' ∧ Tied Sim Loc (countCall begins calls e) a' c' := by
  obtain ⟨k', hprog, hthr⟩ := interleave_eq_some.mp hstep
  have hk' : c'.thread e.1 = k' := by rw [hthr, Function.update_self]
  set r : Call := (e.1, countCall begins calls e e.1) with hr
  have hcur : if begins e.2 then a.phase r = .idle else Loc (a.phase r) c.shared (c.thread e.1) := by
    split
    · next hb =>
      apply hc.future
      simp [countCall, hb]
    · next hb =>
      have hsame : countCall begins calls e e.1 = calls e.1 := by simp [countCall, hb]
      rw [hr, hsame]
      exact hc.loc e.1
  obtain ⟨a', hrun, hsim, hloc, hext⟩ :=
    h.step r c.shared (c.thread e.1) e.2 c'.shared k' a hc.sim hok hprog hcur
  have hframe : ∀ r', r' ≠ r → a'.phase r' = a.phase r' := fun r' hr' =>
    run_accept_phase (h.own r c.shared (c.thread e.1) e.2 k') hr' hrun
  rw [hk']
  refine ⟨a', hrun, hsim, ?_, ?_, ?_⟩
  · intro t
    by_cases ht : t = e.1
    · subst ht
      rw [hk']
      exact hloc
    · have hne : (t, countCall begins calls e t) ≠ r := fun heq => ht (congrArg Prod.fst heq)
      rw [hframe _ hne, countCall_of_ne ht, hthr, Function.update_of_ne ht]
      exact h.stable _ _ _ _ hext (hc.loc t)
  · intro t j hj
    have hne : (t, j) ≠ r := by
      intro heq
      obtain ⟨rfl, rfl⟩ := Prod.mk.inj heq
      exact lt_irrefl _ hj
    rw [hframe _ hne]
    exact hc.future t j (lt_of_le_of_lt (le_countCall calls e t) hj)
  · intro r' old
    by_cases hne : r' = r
    · rw [hne]
      exact h.settled _ _ _ old hloc
    · rw [hframe r' hne]
      exact hc.settled r' old

/-- The history of a whole run is accepted. -/
theorem Simulates.tied_run (h : Simulates prog begins obs ok Sim Loc Ext) {calls : ℕ → ℕ}
    {a : Cells} {c c' : Conf σ κ} {es : List (ℕ × ι)} (hc : Tied Sim Loc calls a c)
    (hok : ∀ e ∈ es, ok e.2) (hrun : run (interleave prog) c es = some c') :
    ∃ a' calls', run accept a (history prog begins obs calls c es) = some a'
      ∧ Tied Sim Loc calls' a' c' := by
  induction es generalizing a c calls with
  | nil =>
    cases hrun
    exact ⟨a, calls, rfl, hc⟩
  | cons e es ih =>
    obtain ⟨c₁, hstep, hrest⟩ := run_cons_eq_some.mp hrun
    obtain ⟨a₁, hblock, htied⟩ := h.tied_step hc (hok e List.mem_cons_self) hstep
    obtain ⟨a', calls', hacc, hend⟩ :=
      ih htied (fun e' he' => hok e' (List.mem_cons_of_mem e he')) hrest
    refine ⟨a', calls', ?_, hend⟩
    simp only [history, hstep]
    exact run_append_eq_some.mpr ⟨a₁, hblock, hacc⟩

/-- **Every history of the program is faithful.** -/
theorem Simulates.faithful (h : Simulates prog begins obs ok Sim Loc Ext) {c c' : Conf σ κ}
    {es : List (ℕ × ι)} (hinit : Sim Cells.init c.shared)
    (hloc : ∀ t, Loc .idle c.shared (c.thread t)) (hok : ∀ e ∈ es, ok e.2)
    (hrun : run (interleave prog) c es = some c') :
    ∃ a, Sim a c'.shared ∧ Faithful (history prog begins obs (fun _ => 0) c es) a.val := by
  have htied : Tied Sim Loc (fun _ => 0) Cells.init c :=
    ⟨hinit, hloc, fun _ _ _ => rfl, fun _ _ => nofun⟩
  obtain ⟨a, calls', hacc, hend⟩ := h.tied_run htied hok hrun
  exact ⟨a, hend.sim, accept_faithful hacc hend.settled⟩

end Program

end ValueCells
