/-
# Calls that change nothing

A system decides the calls that change its object one after another.  A call that changes nothing
is decided when it returns: at a moment of the call at which the object was in a state that gives
its answer.

* `Justified` — the order of the decided calls explains the history and the state of the object;
* `Saw` — the object was in a state of a kind at a moment of a call, and stays so
  (`Saw.append`, `Saw.insert`, `Saw.event`);
* `Justified.call`, `Justified.write`, `Justified.read`, `Justified.ret` — one lemma for each way to
  go on; `Follows` is what the other threads see of it.

Nothing here refers to a particular program.
-/
import Ssr.LateDecisions
import Ssr.CallHistory

namespace Linearizability

variable {ι ω ρ σ : Type*}

/-! ## What a call has seen -/

section Saw

variable [DecidableEq ρ] {S : Spec ω ρ σ} {h : List (Event ι ω ρ)} {log pre post : List (ι × ω × ρ)}
  {i j : ι} {o : ω} {r : ρ} {m : σ} {P : σ → Prop}

/-- At a moment of call `i` the object was in a state with `P`. -/
def Saw (S : Spec ω ρ σ) (h : List (Event ι ω ρ)) (log : List (ι × ω × ρ)) (i : ι) (P : σ → Prop) :
    Prop :=
  ∃ pre post m, log = pre ++ post ∧ S.run S.init pre = some m ∧ P m
    ∧ ∀ j r o, Before h (.ret j r) (.call i o) → j ∈ pre.map (·.1)

/-- The object is in such a state now. -/
theorem saw_now (ht : Tracks h log) (hrun : S.run S.init log = some m) (hm : P m) : Saw S h log i P :=
  ⟨log, [], m, (List.append_nil log).symm, hrun, hm, fun j r _ hb => ht.decided j r hb.mem_left⟩

theorem Saw.append (hs : Saw S h log i P) (l : List (ι × ω × ρ)) : Saw S h (log ++ l) i P := by
  obtain ⟨pre, post, m, rfl, hrun, hm, hret⟩ := hs
  exact ⟨pre, post ++ l, m, List.append_assoc pre post l, hrun, hm, hret⟩

/-- A call that changes nothing is decided somewhere. -/
theorem Saw.insert (hs : Saw S h (pre ++ post) i P) (hpre : S.run S.init pre = some m)
    (hm : S.apply m o = (r, m)) : Saw S h (pre ++ (j, o, r) :: post) i P := by
  obtain ⟨us, vs, m', heq, hrun, hm', hret⟩ := hs
  obtain ⟨zs, rfl, rfl⟩ | ⟨zs, rfl, rfl⟩ := List.append_eq_append_iff.mp heq
  · -- behind the place
    refine ⟨pre ++ (j, o, r) :: zs, vs, m', ?_, ?_, hm', fun k s o' hb => ?_⟩
    · rw [List.append_assoc, List.cons_append]
    · obtain ⟨m'', hpre', hzs⟩ := Spec.run_append_eq_some.mp hrun
      obtain rfl : m = m'' := Option.some.inj (hpre.symm.trans hpre')
      exact Spec.run_insert hpre hzs hm
    · have hk := hret k s o' hb
      rw [List.map_append, List.mem_append] at hk
      rw [map_insert, List.mem_append]
      exact hk.imp id (List.mem_cons_of_mem _)
  · -- before it
    exact ⟨us, zs ++ (j, o, r) :: post, m', List.append_assoc us zs _, hrun, hm', hret⟩

/-- Events after the call do not matter. -/
theorem Saw.event (hs : Saw S h log i P) {e : Event ι ω ρ} (he : ∀ o, e ≠ .call i o) :
    Saw S (h ++ [e]) log i P := by
  obtain ⟨pre, post, m, hlog, hrun, hm, hret⟩ := hs
  refine ⟨pre, post, m, hlog, hrun, hm, fun j r o hb => ?_⟩
  obtain hb | ⟨-, heq⟩ := before_concat_iff.mp hb
  · exact hret j r o hb
  · exact absurd heq.symm (he o)

end Saw

/-! ## Explanations of a record -/

section Justified

variable [DecidableEq ρ] {S : Spec ω ρ σ} {m m' : σ} {g g' : Record ω ρ}
  {log log' : List ((ℕ × ℕ) × ω × ρ)} {t u : ℕ} {r : ℕ × ℕ} {o : ω} {v : ρ} {P : σ → Prop}

/-- The order explains what was called and returned, and the state of the object. -/
structure Justified (S : Spec ω ρ σ) (m : σ) (g : Record ω ρ) (log : List ((ℕ × ℕ) × ω × ρ)) :
    Prop where
  tracks : Tracks g.events log
  legal : S.run S.init log = some m
  answered : ∀ r v, .ret r v ∈ g.events → ∃ o, (r, o, v) ∈ log
  numbered : g.Numbered

/-- Call `r` was made and is not decided. -/
structure Pending (g : Record ω ρ) (log : List ((ℕ × ℕ) × ω × ρ)) (r : ℕ × ℕ) (o : ω) : Prop where
  called : .call r o ∈ g.events
  undecided : r ∉ log.map (·.1)

/-- What a step of another thread leaves to thread `u`. -/
structure Follows (S : Spec ω ρ σ) (u : ℕ) (g : Record ω ρ) (log : List ((ℕ × ℕ) × ω × ρ))
    (g' : Record ω ρ) (log' : List ((ℕ × ℕ) × ω × ρ)) : Prop where
  calls : g'.calls u = g.calls u
  events : ∀ e ∈ g.events, e ∈ g'.events
  order : ∀ x ∈ log, x ∈ log'
  others : ∀ x ∈ log', x.1.1 = u → x ∈ log
  saw : ∀ r P, r.1 = u → Saw S g.events log r P → Saw S g'.events log' r P

theorem Follows.refl (S : Spec ω ρ σ) (u : ℕ) (g : Record ω ρ) (log : List ((ℕ × ℕ) × ω × ρ)) :
    Follows S u g log g log :=
  ⟨rfl, fun _ => id, fun _ => id, fun _ hx _ => hx, fun _ _ _ => id⟩

theorem Follows.trans {g'' : Record ω ρ} {log'' : List ((ℕ × ℕ) × ω × ρ)}
    (hf : Follows S u g log g' log') (hf' : Follows S u g' log' g'' log'') :
    Follows S u g log g'' log'' where
  calls := hf'.calls.trans hf.calls
  events e he := hf'.events e (hf.events e he)
  order x hx := hf'.order x (hf.order x hx)
  others x hx hu := hf.others x (hf'.others x hx hu) hu
  saw r P hr hs := hf'.saw r P hr (hf.saw r P hr hs)

theorem Follows.current (hf : Follows S u g log g' log') : g'.current u = g.current u := by
  rw [Record.current, Record.current, hf.calls]

theorem Pending.stable (hf : Follows S u g log g' log') (hr : r.1 = u) (hp : Pending g log r o) :
    Pending g' log' r o := by
  refine ⟨hf.events _ hp.called, fun hmem => ?_⟩
  obtain ⟨x, hx, rfl⟩ := List.mem_map.mp hmem
  exact hp.undecided (List.mem_map_of_mem (hf.others x hx hr))

/-! ## The ways to go on -/

/-- Thread `t` calls. -/
theorem Justified.call (he : Justified S m g log) (t : ℕ) (o : ω) :
    Justified S m (g.call t o) log ∧ Pending (g.call t o) log ((g.call t o).current t) o
      ∧ ∀ u, u ≠ t → Follows S u g log (g.call t o) log := by
  have hopen : (t, g.calls t + 1) ∉ log.map (·.1) := by
    intro hmem
    obtain ⟨⟨r, o', v⟩, hx, heq⟩ := List.mem_map.mp hmem
    obtain ⟨hno, -⟩ := he.numbered r (by rw [show r = _ from heq]; exact Nat.lt_succ_self _)
    exact hno o' (he.tracks.called r o' v hx)
  refine ⟨⟨he.tracks.call hopen, he.legal, fun r v hr => ?_, he.numbered.call t o⟩, ⟨?_, ?_⟩,
    fun u hu => ⟨Record.calls_call_of_ne hu, fun e hx => ?_, fun _ => id, fun _ hx _ => hx,
      fun r P hr hs => ?_⟩⟩
  · obtain hr | hr := List.mem_append.mp hr
    · exact he.answered r v hr
    · cases List.mem_singleton.mp hr
  · rw [Record.current_call]
    exact List.mem_append_right _ (List.mem_singleton_self _)
  · rw [Record.current_call]
    exact hopen
  · exact List.mem_append_left _ hx
  · refine hs.event fun o' heq => hu ?_
    cases heq
    exact hr.symm

/-- A pending call is decided now. -/
theorem Justified.write (he : Justified S m g log) (hp : Pending g log r o)
    (hm : S.apply m o = (v, m')) :
    Justified S m' g (log ++ [(r, o, v)])
      ∧ ∀ u, u ≠ r.1 → Follows S u g log g (log ++ [(r, o, v)]) := by
  refine ⟨⟨he.tracks.decide hp.undecided hp.called, ?_, fun j w hj => ?_, he.numbered⟩,
    fun u hu => ⟨rfl, fun _ => id, fun _ => List.mem_append_left _, fun x hx hxu => ?_,
      fun _ _ _ hs => hs.append _⟩⟩
  · have hrun := Spec.run_concat (i := r) (o := o) he.legal
    rw [hm] at hrun
    exact hrun
  · obtain ⟨o', ho'⟩ := he.answered j w hj
    exact ⟨o', List.mem_append_left _ ho'⟩
  · obtain hx | hx := List.mem_append.mp hx
    · exact hx
    · rw [List.mem_singleton.mp hx] at hxu
      exact absurd hxu.symm hu

/-- A pending call that changes nothing is decided where it saw what it answers. -/
theorem Justified.read (he : Justified S m g log) (hp : Pending g log r o)
    (hs : Saw S g.events log r P) (hP : ∀ m, P m → S.apply m o = (v, m)) :
    ∃ log', Justified S m g log' ∧ (r, o, v) ∈ log'
      ∧ ∀ u, u ≠ r.1 → Follows S u g log g log' := by
  obtain ⟨pre, post, m', rfl, hpre, hm', hret⟩ := hs
  obtain ⟨m'', hpre', hpost⟩ := Spec.run_append_eq_some.mp he.legal
  obtain rfl : m' = m'' := Option.some.inj (hpre.symm.trans hpre')
  have hm := hP m' hm'
  refine ⟨pre ++ (r, o, v) :: post,
    ⟨he.tracks.insert hp.undecided hp.called hret, Spec.run_insert hpre hpost hm, fun j w hj => ?_,
      he.numbered⟩, List.mem_append_right _ List.mem_cons_self,
    fun u hu => ⟨rfl, fun _ => id, fun x hx => ?_, fun x hx hxu => ?_,
      fun _ _ _ hs => hs.insert hpre hm⟩⟩
  · obtain ⟨o', ho'⟩ := he.answered j w hj
    exact ⟨o', (List.Sublist.append_left (List.sublist_cons_self _ post) pre).subset ho'⟩
  · exact (List.Sublist.append_left (List.sublist_cons_self _ post) pre).subset hx
  · obtain hx | hx := List.mem_append.mp hx
    · exact List.mem_append_left _ hx
    · obtain rfl | hx := List.mem_cons.mp hx
      · exact absurd hxu.symm hu
      · exact List.mem_append_right _ hx

/-- A call that was decided returns. -/
theorem Justified.ret (he : Justified S m g log) (hd : (g.current t, o, v) ∈ log) :
    Justified S m (g.ret t v) log ∧ ∀ u, u ≠ t → Follows S u g log (g.ret t v) log := by
  refine ⟨⟨he.tracks.ret (List.mem_map_of_mem hd), he.legal, fun r w hr => ?_,
    he.numbered.ret t v⟩, fun u hu => ⟨rfl, fun e hx => List.mem_append_left _ hx, fun _ => id,
      fun _ hx _ => hx, fun r P hr hs => hs.event fun _ heq => ?_⟩⟩
  · obtain hr | hr := List.mem_append.mp hr
    · exact he.answered r w hr
    · cases List.mem_singleton.mp hr
      exact ⟨o, hd⟩
  · cases heq

/-- An explained history is linearizable. -/
theorem Justified.linearizable (he : Justified S m g log) : Linearizable S g.events := by
  refine ⟨log, he.tracks.linearizes ?_ he.answered⟩
  rw [he.legal]
  rfl

end Justified

end Linearizability
