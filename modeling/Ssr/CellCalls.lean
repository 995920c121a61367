/-
# Calls on claimed cells, step by step

What a call knows of its key while it runs, and the places in the order that its steps find.

* `Running` — the call has not been decided; `Met` — it has met the cell of its key;
* `Settles` — there is an order for a step of the call, and one lemma for each way to find it.

Nothing here refers to a particular program.
-/
import Ssr.ClaimedCells
import Ssr.CallHistory

open Linearizability

namespace ClaimedCells

variable {κ : Type*}

/-! ## What a call knows -/

/-- What the operation writes is a value. -/
def Op.Proper : Op κ → Prop
  | .write _ _ new => new ≠ 0
  | .get _ | .remove _ => True

/-- Call `r` is on its way; where it may find nothing, a live cell of its key has `P`. -/
structure Running (V : View κ) (H : History κ) (D : Decisions κ) (r : Call) (o : Op κ)
    (P : ℕ → Prop) : Prop where
  proper : o.Proper
  undecided : Undecided H D r o
  seeks : o.Passive → Seeks V H D r o P

/-- Call `r` has met the cell with its key. -/
structure Met (V : View κ) (H : History κ) (D : Decisions κ) (r : Call) (key : κ) (n : ℕ) : Prop where
  key_eq : V.key n = key
  kept : V.live n ∨ D.claim n ≠ none
  seen : Seen H D r n

/-- The history when call `r` comes to answer `a`, or to no answer yet. -/
def events (H : History κ) (r : Call) : Option ℕ → History κ
  | some v => H ++ [.ret r v]
  | none => H

theorem events_note (g : Record (Op κ) ℕ) (t : ℕ) (a : Option ℕ) :
    (g.note t none a).events = events g.events (g.current t) a := by
  cases a <;> rfl

/-- There is an order with `Q` for a step of call `r` that makes `V'` of the cells and comes to
answer `a`. -/
def Settles [DecidableEq κ] (V : View κ) (H : History κ) (D : Decisions κ) (V' : View κ) (r : Call)
    (a : Option ℕ) (Q : Decisions κ → Prop) : Prop :=
  ∃ D', Good V' (events H r a) D' ∧ Q D' ∧ ∀ u, u ≠ r.1 → Rely u V H D V' (events H r a) D'

section Knows

variable [DecidableEq κ] {V V' : View κ} {H H' : History κ} {D D' : Decisions κ} {r : Call}
  {o : Op κ} {key : κ} {n : ℕ} {P P' : ℕ → Prop}

omit [DecidableEq κ] in
theorem Running.imp (hrun : Running V H D r o P)
    (hP : ∀ n, V.live n → V.key n = o.key → P n → P' n) : Running V H D r o P' where
  proper := hrun.proper
  undecided := hrun.undecided
  seeks hpass := (hrun.seeks hpass).imp hP

theorem Running.stable (hg : Good V H D) (hr : Rely r.1 V H D V' H' D')
    (hrun : Running V H D r o P)
    (hP : ∀ n, V.live n → V'.live n → V.key n = o.key → P n → P' n) :
    Running V' H' D' r o P' where
  proper := hrun.proper
  undecided := hrun.undecided.stable hg hr
  seeks hpass := (hrun.seeks hpass).stable hg hr hrun.undecided hP

omit [DecidableEq κ] in
theorem Met.stable (hr : Rely r.1 V H D V' H' D') (hc : .call r o ∈ H)
    (hm : Met V H D r key n) : Met V' H' D' r key n where
  key_eq := (hr.key n hm.kept).trans hm.key_eq
  kept := hm.kept.elim (fun hl => hr.live n hl) fun hn => .inr (hr.claimed hn)
  seen := hm.seen.stable hr hc

/-- A cell without a value was claimed. -/
theorem Met.claimed (hg : Good V H D) (hm : Met V H D r key n) (hv : V.val n = 0) :
    D.claim n ≠ none :=
  hm.kept.resolve_left fun hl => hg.filled n hl hv

/-! ## The decisions of a call -/

theorem Running.misses (hg : Good V H D) (hrun : Running V H D r o P) (ho : o.Passive)
    (hP : ∀ n, V.live n → V.key n = o.key → ¬ P n) : Decides V H D V r o 0 :=
  hg.seeks_miss hrun.undecided ho (hrun.seeks ho) hP

theorem Met.misses (hg : Good V H D) (hm : Met V H D r o.key n) (hp : Undecided H D r o)
    (ho : o.Passive) (hn : D.claim n ≠ none) : Decides V H D V r o 0 :=
  hg.miss hp ho hm.key_eq hn hm.seen

theorem Met.reads (hg : Good V H D) (hm : Met V H D r o.key n) (hp : Undecided H D r o)
    (ho : o.Reads) (hv : V.val n ≠ 0) : Decides V H D V r o (V.val n) :=
  hg.read hp ho hm.key_eq hv hm.kept hm.seen

/-- A lookup answers with what it loads. -/
theorem Met.gets (hg : Good V H D) (hm : Met V H D r key n) (hp : Undecided H D r (.get key)) :
    Decides V H D V r (.get key) (V.val n) := by
  by_cases hv : V.val n = 0
  · rw [hv]
    exact hm.misses (o := .get key) hg hp trivial (hm.claimed hg hv)
  · exact hm.reads (o := .get key) hg hp trivial hv

theorem Met.updates {mode : Mode} {new : ℕ} (hg : Good V H D) (hm : Met V H D r key n)
    (hp : Undecided H D r (.write mode key new)) (hmode : mode ≠ .add) (hnew : new ≠ 0)
    (hv : V.val n ≠ 0) :
    Decides V H D { V with val := Function.update V.val n new } r (.write mode key new) (V.val n) :=
  hg.update hp hmode hnew hm.key_eq hv hm.kept hm.seen

omit [DecidableEq κ] in
/-- A call that came too late starts again. -/
theorem Met.again (hm : Met V H D r o.key n) (hp : Undecided H D r o) (hok : o.Proper)
    (hn : D.claim n ≠ none) (P : ℕ → Prop) : Running V H D r o P where
  proper := hok
  undecided := hp
  seeks _ := .inr ⟨n, hm.key_eq, hm.seen, .inl hn⟩

/-! ## The steps of a call -/

variable {Q : Decisions κ → Prop} {v : ℕ}

theorem settles_stay (hg : Good V H D) (hQ : Q D) : Settles V H D V r none Q :=
  ⟨D, hg, hQ, fun u _ => Rely.refl u V H D⟩

theorem Decides.settles (hd : Decides V H D V' r o v)
    (hQ : ∀ D', D'.claim = D.claim → Decided V' H D' r o v → Q D') :
    Settles V H D V' r none Q := by
  obtain ⟨D', hg, hclaim, hdec, hrely⟩ := hd
  exact ⟨D', hg, hQ D' hclaim hdec, hrely⟩

theorem Decides.answers (hd : Decides V H D V' r o v) (hQ : ∀ D', D'.claim = D.claim → Q D') :
    Settles V H D V' r (some v) Q := by
  obtain ⟨D', hg, hclaim, hdec, hrely⟩ := hd
  obtain ⟨hg', hret⟩ := hg.ret hdec
  exact ⟨D', hg', hQ D' hclaim, fun u hu => (hrely u hu).trans (hret u hu)⟩

/-- The call has been decided before. -/
theorem Decided.answers (hg : Good V H D) (hd : Decided V H D r o v) (hQ : Q D) :
    Settles V H D V r (some v) Q := by
  obtain ⟨hg', hret⟩ := hg.ret hd
  exact ⟨D, hg', hQ, hret⟩

end Knows

end ClaimedCells
