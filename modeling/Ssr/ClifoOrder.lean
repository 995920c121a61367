/-
# When `clifo` is a stack

The slots that the calls reserve are those of a stack, in the order of the CASes on
`head`; but a call takes the lock of its slot later, and may be overtaken there by
another call of its kind that came to the slot after it.  Where no call reserves a slot
at which a call of its kind still waits, every pop gets the value of the push that the
stack says, and the calls take effect at their CASes on `head`.

* `Unqueued` — no call of the same kind waits at the slot;
* `Order` — what waits at a slot, and what is in it, matches the stack;
* `clifo_linearizable_unqueued` — the runs without overtaking are those of a stack;
* `overtaken_pop_breaks_lifo` — a run with overtaking that is not.
-/
import Ssr.ClifoConserves

open Interleaving Linearizability

namespace Clifo

/-! ## What a stack is -/

/-- The values that are pushed are different. -/
def DistinctPushes (h : List (Event Id Op Ret)) : Prop :=
  ∀ c c' v, .call c (.push v) ∈ h → .call c' (.push v) ∈ h → c = c'

/-- Last in, first out, seen from outside: a pop that began after the pushes of `x` and
then of `y` returned gets `x` only if another pop, begun before it returned, gets `y`. -/
def LifoOrder (h : List (Event Id Op Ret)) : Prop :=
  DistinctPushes h → ∀ a b q x y, x ≠ 0 → y ≠ 0 → .call a (.push x) ∈ h →
    Before h (.ret a (.push 0)) (.call b (.push y)) → Before h (.ret b (.push 0)) (.call q .pop) →
    .ret q (.pop x) ∈ h →
    ∃ q', Before h (.call q' .pop) (.ret q (.pop x)) ∧ (∀ v, .ret q' (.pop v) ∈ h → v = y)
      ∧ ∀ q'', .ret q'' (.pop y) ∈ h → q'' = q'

/-- The calls and returns are those of a stack with room for `size - 1` values. -/
def StackLike (size : ℕ) (h : List (Event Id Op Ret)) : Prop :=
  Linearizable (stackSpec (size - 1)) h ∧ LifoOrder h

/-! ## Sequences of calls on a stack -/

section Sequences

variable {capacity : ℕ} {log : List (Id × Op × Ret)} {st : List ℕ}

/-- One more call at the end. -/
theorem run_concat_inv {c : Id} {o : Op} {r : Ret}
    (h : (stackSpec capacity).run [] (log ++ [(c, o, r)]) = some st) :
    ∃ st', (stackSpec capacity).run [] log = some st' ∧ ((stackSpec capacity).apply st' o).1 = r
      ∧ st = ((stackSpec capacity).apply st' o).2 := by
  rw [Spec.run_append] at h
  obtain ⟨st', h1, h2⟩ := Option.bind_eq_some_iff.mp h
  refine ⟨st', h1, ?_⟩
  simp only [Spec.run] at h2
  split_ifs at h2 with heq
  exact ⟨heq, (Option.some.inj h2).symm⟩

/-- What is in the stack was pushed; what was pushed and not popped is in it; and two
values lie in it in the order of their pushes. -/
theorem stack_order (hn : (log.map (·.1)).Nodup)
    (hd : ∀ c c' v r r', (c, Op.push v, r) ∈ log → (c', Op.push v, r') ∈ log → c = c')
    (h : (stackSpec capacity).run [] log = some st) :
    st.Nodup ∧ (∀ z ∈ st, ∃ c, (c, .push z, .push 0) ∈ log)
      ∧ (∀ b y, (b, Op.push y, Ret.push 0) ∈ log → (∀ q, (q, Op.pop, Ret.pop y) ∉ log) → y ∈ st)
      ∧ ∀ a x b y, Before log (a, .push x, .push 0) (b, .push y, .push 0) → x ∈ st → y ∈ st →
        Before st x y := by
  induction log using List.reverseRecOn generalizing st with
  | nil =>
    cases h
    refine ⟨List.nodup_nil, fun z hz => absurd hz List.not_mem_nil,
      fun b y hb => absurd hb List.not_mem_nil, fun a x b y hb => absurd hb.mem_left List.not_mem_nil⟩
  | append_singleton log e ih =>
    obtain ⟨c, o, r⟩ := e
    obtain ⟨st', hrun, hr, rfl⟩ := run_concat_inv h
    rw [List.map_append, List.nodup_append] at hn
    have hc : c ∉ log.map (·.1) := fun hm => hn.2.2 c hm c (List.mem_singleton_self c) rfl
    obtain ⟨hnodup, hpushed, hkept, hord⟩ := ih hn.1
      (fun c c' v r r' h1 h2 => hd c c' v r r' (List.mem_append_left _ h1) (List.mem_append_left _ h2))
      hrun
    cases o with
    | push v =>
      by_cases hfull : st'.length = capacity
      · -- nothing is pushed
        have hst : ((stackSpec capacity).apply st' (.push v)).2 = st' := by
          simp [stackSpec, hfull]
        have hr' : r = .push (-1) := by
          rw [← hr]
          simp [stackSpec, hfull]
        rw [hst]
        refine ⟨hnodup, fun z hz => ?_, fun b y hb hy => ?_, fun a x b y hb hx hy => ?_⟩
        · obtain ⟨d, hd⟩ := hpushed z hz
          exact ⟨d, List.mem_append_left _ hd⟩
        · rcases List.mem_append.mp hb with hb | hb
          · exact hkept b y hb fun q hq => hy q (List.mem_append_left _ hq)
          · rw [hr'] at hb
            exact absurd (List.mem_singleton.mp hb) (by simp)
        · rcases before_concat_iff.mp hb with hb | ⟨-, hb⟩
          · exact hord a x b y hb hx hy
          · rw [hr'] at hb
            exact absurd hb (by simp)
      · have hst : ((stackSpec capacity).apply st' (.push v)).2 = st' ++ [v] := by
          simp [stackSpec, hfull]
        have hnew : v ∉ st' := by
          intro hv
          obtain ⟨d, hdm⟩ := hpushed v hv
          have hdc : d = c := hd d c v _ r (List.mem_append_left _ hdm)
            (List.mem_append_right _ (List.mem_singleton_self _))
          exact hc (hdc ▸ List.mem_map_of_mem hdm)
        have hr' : r = .push 0 := by
          rw [← hr]
          simp [stackSpec, hfull]
        rw [hst]
        refine ⟨?_, fun z hz => ?_, fun b y hb hy => ?_, fun a x b y hb hx hy => ?_⟩
        · refine List.nodup_append.mpr ⟨hnodup, List.nodup_singleton _, fun a ha b hb => ?_⟩
          rw [List.mem_singleton.mp hb]
          rintro rfl
          exact hnew ha
        · rcases List.mem_append.mp hz with hz | hz
          · obtain ⟨d, hd⟩ := hpushed z hz
            exact ⟨d, List.mem_append_left _ hd⟩
          · rw [List.mem_singleton.mp hz, hr']
            exact ⟨c, List.mem_append_right _ (List.mem_singleton_self _)⟩
        · rcases List.mem_append.mp hb with hb | hb
          · exact List.mem_append_left _
              (hkept b y hb fun q hq => hy q (List.mem_append_left _ hq))
          · cases List.mem_singleton.mp hb
            exact List.mem_append_right _ (List.mem_singleton_self _)
        · rcases before_concat_iff.mp hb with hb | ⟨ha, heq⟩
          · -- neither of the two is pushed now
            have hxv : x ∈ st' := by
              rcases List.mem_append.mp hx with hx | hx
              · exact hx
              · cases List.mem_singleton.mp hx
                have := hd a c v _ r (List.mem_append_left _ hb.mem_left)
                  (List.mem_append_right _ (List.mem_singleton_self _))
                exact absurd (List.mem_map_of_mem hb.mem_left) (this ▸ hc)
            have hyv : y ∈ st' := by
              rcases List.mem_append.mp hy with hy | hy
              · exact hy
              · cases List.mem_singleton.mp hy
                have := hd b c v _ r (List.mem_append_left _ hb.mem_right)
                  (List.mem_append_right _ (List.mem_singleton_self _))
                exact absurd (List.mem_map_of_mem hb.mem_right) (this ▸ hc)
            exact (hord a x b y hb hxv hyv).append _
          · cases heq
            rcases List.mem_append.mp hx with hx | hx
            · exact before_concat hx
            · cases List.mem_singleton.mp hx
              have := hd a c v _ _ (List.mem_append_left _ ha)
                (List.mem_append_right _ (List.mem_singleton_self _))
              exact absurd (List.mem_map_of_mem ha) (this ▸ hc)
    | pop =>
      have hst : ((stackSpec capacity).apply st' .pop).2 = st'.dropLast := by
        obtain rfl | ⟨st'', z, rfl⟩ := List.eq_nil_or_concat' st'
        · rfl
        · simp [stackSpec]
      rw [hst]
      have hmem : ∀ z ∈ st'.dropLast, z ∈ st' := fun z hz => List.mem_of_mem_dropLast hz
      refine ⟨hnodup.sublist (List.dropLast_sublist st'), fun z hz => ?_, fun b y hb hy => ?_,
        fun a x b y hb hx hy => ?_⟩
      · obtain ⟨d, hd⟩ := hpushed z (hmem z hz)
        exact ⟨d, List.mem_append_left _ hd⟩
      · rcases List.mem_append.mp hb with hb | hb
        · have hy' := hkept b y hb fun q hq => hy q (List.mem_append_left _ hq)
          obtain rfl | ⟨st'', z, rfl⟩ := List.eq_nil_or_concat' st'
          · exact hy'
          · rw [List.dropLast_concat]
            rcases List.mem_append.mp hy' with hy' | hy'
            · exact hy'
            · -- it is popped now
              cases List.mem_singleton.mp hy'
              refine absurd (List.mem_append_right _ ?_) (hy c)
              rw [← hr]
              simp [stackSpec]
        · exact absurd (List.mem_singleton.mp hb) (by simp)
      · rcases before_concat_iff.mp hb with hb | ⟨-, hb⟩
        · have hst' := hord a x b y hb (hmem x hx) (hmem y hy)
          obtain rfl | ⟨st'', z, rfl⟩ := List.eq_nil_or_concat' st'
          · exact hst'
          · rw [List.dropLast_concat] at hy ⊢
            rcases before_concat_iff.mp hst' with hst' | ⟨-, rfl⟩
            · exact hst'
            · have := (List.nodup_append.mp hnodup).2.2 y hy y (List.mem_singleton_self y)
              exact absurd rfl this
        · exact absurd hb (by simp)

/-- A value that was popped was pushed, is gone, and is not popped again. -/
theorem pop_once (hn : (log.map (·.1)).Nodup)
    (hd : ∀ c c' v r r', (c, Op.push v, r) ∈ log → (c', Op.push v, r') ∈ log → c = c')
    (h : (stackSpec capacity).run [] log = some st) :
    (∀ q y, y ≠ 0 → (q, Op.pop, Ret.pop y) ∈ log → y ∉ st ∧ ∃ c, (c, .push y, .push 0) ∈ log)
      ∧ ∀ q q' y, y ≠ 0 → (q, Op.pop, Ret.pop y) ∈ log → (q', Op.pop, Ret.pop y) ∈ log → q = q' := by
  induction log using List.reverseRecOn generalizing st with
  | nil => exact ⟨fun q y _ hq => absurd hq List.not_mem_nil,
      fun q q' y _ hq => absurd hq List.not_mem_nil⟩
  | append_singleton log e ih =>
    obtain ⟨c, o, r⟩ := e
    obtain ⟨st', hrun, hr, rfl⟩ := run_concat_inv h
    rw [List.map_append, List.nodup_append] at hn
    have hc : c ∉ log.map (·.1) := fun hm => hn.2.2 c hm c (List.mem_singleton_self c) rfl
    have hd' : ∀ c c' v r r', (c, Op.push v, r) ∈ log → (c', Op.push v, r') ∈ log → c = c' :=
      fun c c' v r r' h1 h2 => hd c c' v r r' (List.mem_append_left _ h1) (List.mem_append_left _ h2)
    obtain ⟨hgone, honce⟩ := ih hn.1 hd' hrun
    obtain ⟨hnodup, hpushed, -, -⟩ := stack_order hn.1 hd' hrun
    cases o with
    | push v =>
      have hold : ∀ q y, (q, Op.pop, Ret.pop y) ∈ log ++ [(c, Op.push v, r)] →
          (q, Op.pop, Ret.pop y) ∈ log := by
        intro q y hq
        rcases List.mem_append.mp hq with hq | hq
        · exact hq
        · exact absurd (List.mem_singleton.mp hq) (by simp)
      refine ⟨fun q y hy hq => ?_, fun q q' y hy hq hq' => honce q q' y hy (hold q y hq)
        (hold q' y hq')⟩
      obtain ⟨hout, d, hdm⟩ := hgone q y hy (hold q y hq)
      refine ⟨?_, d, List.mem_append_left _ hdm⟩
      by_cases hfull : st'.length = capacity
      · simp only [stackSpec, hfull, if_true]
        exact hout
      · simp only [stackSpec, hfull, if_false]
        intro hmem
        rcases List.mem_append.mp hmem with hmem | hmem
        · exact hout hmem
        · cases List.mem_singleton.mp hmem
          have hdc := hd d c v _ r (List.mem_append_left _ hdm)
            (List.mem_append_right _ (List.mem_singleton_self _))
          exact hc (hdc ▸ List.mem_map_of_mem hdm)
    | pop =>
      obtain rfl | ⟨st'', z, rfl⟩ := List.eq_nil_or_concat' st'
      · -- nothing is popped
        have hr' : r = .pop 0 := hr.symm
        have hold : ∀ q y, y ≠ 0 → (q, Op.pop, Ret.pop y) ∈ log ++ [(c, Op.pop, r)] →
            (q, Op.pop, Ret.pop y) ∈ log := by
          intro q y hy hq
          rcases List.mem_append.mp hq with hq | hq
          · exact hq
          · rw [hr'] at hq
            cases List.mem_singleton.mp hq
            exact absurd rfl hy
        refine ⟨fun q y hy hq => ?_, fun q q' y hy hq hq' => honce q q' y hy (hold q y hy hq)
          (hold q' y hy hq')⟩
        obtain ⟨hout, d, hdm⟩ := hgone q y hy (hold q y hy hq)
        exact ⟨hout, d, List.mem_append_left _ hdm⟩
      · have hr' : r = .pop z := by
          rw [← hr]
          simp [stackSpec]
        have hst : ((stackSpec capacity).apply (st'' ++ [z]) .pop).2 = st'' := by
          simp [stackSpec]
        rw [hst]
        have hz : z ∉ st'' := fun hz =>
          (List.nodup_append.mp hnodup).2.2 z hz z (List.mem_singleton_self z) rfl
        have hin : z ∈ st'' ++ [z] := List.mem_append_right _ (List.mem_singleton_self z)
        refine ⟨fun q y hy hq => ?_, fun q q' y hy hq hq' => ?_⟩
        · rcases List.mem_append.mp hq with hq | hq
          · obtain ⟨hout, d, hdm⟩ := hgone q y hy hq
            exact ⟨fun hm => hout (List.mem_append_left _ hm), d, List.mem_append_left _ hdm⟩
          · rw [hr'] at hq
            cases List.mem_singleton.mp hq
            obtain ⟨d, hdm⟩ := hpushed _ hin
            exact ⟨hz, d, List.mem_append_left _ hdm⟩
        · rw [hr'] at hq hq'
          rcases List.mem_append.mp hq with hq | hq <;> rcases List.mem_append.mp hq' with hq' | hq'
          · exact honce q q' y hy hq hq'
          · cases List.mem_singleton.mp hq'
            exact absurd hin (hgone q _ hy hq).1
          · cases List.mem_singleton.mp hq
            exact absurd hin (hgone q' _ hy hq').1
          · cases List.mem_singleton.mp hq
            cases List.mem_singleton.mp hq'
            rfl

/-- **A linearizable history is last in, first out.** -/
theorem lifoOrder_of_linearizes {h : List (Event Id Op Ret)}
    (hl : Linearizes (stackSpec capacity) h log)
    (hcalls : ∀ c o o', .call c o ∈ h → .call c o' ∈ h → o = o') : LifoOrder h := by
  intro hdist a b q x y hx hy hca hab hbq hret
  have hd : ∀ c c' v r r', (c, Op.push v, r) ∈ log → (c', Op.push v, r') ∈ log → c = c' :=
    fun c c' v r r' h1 h2 => hdist c c' v (hl.called _ _ _ h1) (hl.called _ _ _ h2)
  have hop : ∀ c o r, .call c o ∈ h → .ret c r ∈ h → (c, o, r) ∈ log := by
    intro c o r hc hr
    obtain ⟨o', ho'⟩ := hl.answered c r hr
    rwa [hcalls c o o' hc (hl.called c o' r ho')]
  have hinj : ∀ e ∈ log, ∀ e' ∈ log, e.1 = e'.1 → e = e' := fun e he e' he' =>
    List.inj_on_of_nodup_map hl.nodup he he'
  have hA := hop a _ _ hca hab.mem_left
  have hB := hop b _ _ hab.mem_right hbq.mem_left
  have hQ := hop q _ _ hbq.mem_right hret
  have hlog : log.Nodup := List.Nodup.of_map _ hl.nodup
  have hbefore : ∀ e ∈ log, ∀ e' ∈ log, Before (log.map (·.1)) e.1 e'.1 → Before log e e' := by
    intro e he e' he' hb
    obtain ⟨u, w, hu, hw, hb⟩ := hb.of_map
    rwa [hinj u hb.mem_left e he hu, hinj w hb.mem_right e' he' hw] at hb
  have hAB := hbefore _ hA _ hB (hl.ordered a _ b _ hab (List.mem_map_of_mem hB))
  have hBQ := hbefore _ hB _ hQ (hl.ordered b _ q _ hbq (List.mem_map_of_mem hQ))
  -- the calls before the pop
  obtain ⟨l₁, l₂, hsplit⟩ := List.append_of_mem hQ
  rw [hsplit] at hlog hAB hBQ
  have hB₁ := hBQ.mem_of_split hlog
  have hAB₁ := hAB.of_split hlog hB₁
  have hsub : ∀ e ∈ l₁, e ∈ log := fun e he => hsplit ▸ List.mem_append_left _ he
  have hn₁ : (l₁.map (·.1)).Nodup := by
    have := hl.nodup
    rw [hsplit, List.map_append] at this
    exact (List.nodup_append.mp this).1
  have hd₁ : ∀ c c' v r r', (c, Op.push v, r) ∈ l₁ → (c', Op.push v, r') ∈ l₁ → c = c' :=
    fun c c' v r r' h1 h2 => hd c c' v r r' (hsub _ h1) (hsub _ h2)
  obtain ⟨st, hst⟩ := Option.isSome_iff_exists.mp hl.legal
  have hrun := hst
  rw [hsplit, Spec.run_append] at hrun
  obtain ⟨st₁, hrun₁, hrun₂⟩ := Option.bind_eq_some_iff.mp hrun
  simp only [Spec.run] at hrun₂
  split_ifs at hrun₂ with hans
  obtain ⟨hnodup, -, hkept, hord⟩ := stack_order hn₁ hd₁ hrun₁
  -- the pop gets the top, so that the later value is gone
  obtain ⟨st', rfl⟩ : ∃ st', st₁ = st' ++ [x] := by
    obtain rfl | ⟨st', z, rfl⟩ := List.eq_nil_or_concat' st₁
    · exact absurd (Ret.pop.inj hans) hx.symm
    · refine ⟨st', ?_⟩
      have : Ret.pop z = Ret.pop x := by
        rw [← hans]
        simp [stackSpec]
      rw [Ret.pop.inj this]
  have hxlast : x ∉ st' := fun hm =>
    (List.nodup_append.mp hnodup).2.2 x hm x (List.mem_singleton_self x) rfl
  obtain ⟨q', hq'⟩ : ∃ q', (q', Op.pop, Ret.pop y) ∈ l₁ := by
    by_contra hno
    have hy' := hkept b y hB₁ fun q' hq' => hno ⟨q', hq'⟩
    have hxy := hord a x b y hAB₁ (List.mem_append_right _ (List.mem_singleton_self x)) hy'
    rcases before_concat_iff.mp hxy with hxy | ⟨hxs, -⟩
    · exact hxlast hxy.mem_left
    · exact hxlast hxs
  refine ⟨q', ?_, fun v hv => ?_, fun q'' hq'' => ?_⟩
  · rcases before_total (hl.called _ _ _ (hsub _ hq')) hret (by simp) with hb | hb
    · exact hb
    · -- then the pop would come first
      have hb' := hbefore _ hQ _ (hsub _ hq')
        (hl.ordered q _ q' _ hb (List.mem_map_of_mem (hsub _ hq')))
      rw [hsplit] at hb'
      refine absurd hb' (Before.asymm hlog ?_)
      exact ⟨l₁, _ :: l₂, rfl, hq', List.mem_cons_self⟩
  · obtain ⟨o, ho⟩ := hl.answered q' _ hv
    have := hinj _ ho _ (hsub _ hq') rfl
    exact Ret.pop.inj (congrArg (fun e => e.2.2) this)
  · obtain ⟨o, ho⟩ := hl.answered q'' _ hq''
    have ho' : o = .pop := by
      cases o with
      | pop => rfl
      | push v =>
        -- a push does not return a value
        exfalso
        obtain ⟨m₁, m₂, hm⟩ := List.append_of_mem ho
        rw [hm, Spec.run_append] at hst
        obtain ⟨st₂, -, hst₂⟩ := Option.bind_eq_some_iff.mp hst
        simp only [Spec.run] at hst₂
        split_ifs at hst₂ with heq
        revert heq
        simp only [stackSpec]
        split_ifs <;> simp
    subst ho'
    exact (pop_once hl.nodup hd hst).2 q'' q' y hy ho (hsub _ hq')

end Sequences

/-! ## The runs without overtaking -/

/-- A call reserves a slot only when no call of its kind waits there for the lock. -/
def Unqueued (_t : ℕ) (s : Lifo) (pc : Pc) (_cmd : Cmd) : Prop :=
  match pc with
  | .pushCas _ _ head => s.head = head → s.waitPush head = []
  | .popCas _ head => s.head = head → s.waitPop (head - 1) = []
  | _ => True

instance (t : ℕ) (s : Lifo) (pc : Pc) (cmd : Cmd) : Decidable (Unqueued t s pc cmd) := by
  unfold Unqueued
  split <;> infer_instance

/-- What is in a slot and waits to be put there, against what waits to be taken and what
the stack has there. -/
structure Order (size : ℕ) (s : Lifo) : Prop where
  matched : ∀ i, (s.phase i).held ++ (s.waitPush i).map (·.2)
    = (s.waitPop i).map (·.2) ++ s.stack[i]?.toList
  short_push : ∀ i, (s.waitPush i).length ≤ 1
  short_pop : ∀ i, (s.waitPop i).length ≤ 1
  length_eq : s.stack.length = s.head
  legal : (stackSpec (size - 1)).run [] s.log = some s.stack
  told_push : ∀ i c v, (c, v) ∈ s.waitPush i → (c, .push v, .push 0) ∈ s.log
  told_pop : ∀ i c v, (c, v) ∈ s.waitPop i → (c, .pop, .pop v) ∈ s.log
  told_filling : ∀ i c v, s.phase i = .filling c v → (c, .push v, .push 0) ∈ s.log
  told_draining : ∀ i q p v, s.phase i = .draining q p v → (q, .pop, .pop v) ∈ s.log
  answered : ∀ c r, .ret c r ∈ s.events → ∃ o, (c, o, r) ∈ s.log
  once : ∀ c o o', .call c o ∈ s.events → .call c o' ∈ s.events → o = o'
  numbered : ∀ c o, .call c o ∈ s.events → c.2 < s.calls c.1

/-- A pop has read what the stack says. -/
def Told (s : Lifo) : Pc → Prop
  | .popUnlock c _ v => (c, .pop, .pop v) ∈ s.log
  | _ => True

section Order

variable {size t i v : ℕ} {s : Lifo} {c : Id} {op : Op} {r : Ret}

theorem Order.enter (h : Order size s) (t : ℕ) (op : Op) : Order size (s.enter t op) := by
  refine ⟨h.matched, h.short_push, h.short_pop, h.length_eq, h.legal, h.told_push, h.told_pop,
    h.told_filling, h.told_draining, fun d r hr => ?_, fun d o o' ho ho' => ?_, fun d o ho => ?_⟩
  · rcases List.mem_append.mp hr with hr | hr
    · exact h.answered d r hr
    · exact absurd (List.mem_singleton.mp hr) (by simp)
  · rcases List.mem_append.mp ho with ho | ho <;> rcases List.mem_append.mp ho' with ho' | ho'
    · exact h.once d o o' ho ho'
    · cases List.mem_singleton.mp ho'
      exact absurd (h.numbered _ _ ho) (lt_irrefl _)
    · cases List.mem_singleton.mp ho
      exact absurd (h.numbered _ _ ho') (lt_irrefl _)
    · cases List.mem_singleton.mp ho
      cases List.mem_singleton.mp ho'
      rfl
  · change d.2 < Function.update s.calls t (s.calls t + 1) d.1
    rcases List.mem_append.mp ho with ho | ho
    · have hlt := h.numbered d o ho
      by_cases hdt : d.1 = t
      · rw [hdt] at hlt ⊢
        rw [Function.update_self]
        omega
      · rw [Function.update_of_ne hdt]
        exact hlt
    · cases List.mem_singleton.mp ho
      rw [Function.update_self]
      exact Nat.lt_succ_self _

theorem Order.leave (h : Order size s) (hc : ∃ o, (c, o, r) ∈ s.log) : Order size (s.leave c r) := by
  have hcall : ∀ d o, Event.call d o ∈ s.events ++ [.ret c r] → .call d o ∈ s.events := by
    intro d o ho
    rcases List.mem_append.mp ho with ho | ho
    · exact ho
    · exact absurd (List.mem_singleton.mp ho) (by simp)
  refine ⟨h.matched, h.short_push, h.short_pop, h.length_eq, h.legal, h.told_push, h.told_pop,
    h.told_filling, h.told_draining, fun d r' hr => ?_,
    fun d o o' ho ho' => h.once d o o' (hcall d o ho) (hcall d o' ho'),
    fun d o ho => h.numbered d o (hcall d o ho)⟩
  rcases List.mem_append.mp hr with hr | hr
  · exact h.answered d r' hr
  · cases List.mem_singleton.mp hr
    exact hc

/-- A call is decided that does not change the stack. -/
theorem Order.fail (h : Order size s)
    (hspec : (stackSpec (size - 1)).apply s.stack op = (r, s.stack)) : Order size (s.fail c op r) := by
  have hl : ∀ e ∈ s.log, e ∈ s.log ++ [(c, op, r)] := fun e he => List.mem_append_left _ he
  have hlegal : (stackSpec (size - 1)).run [] (s.log ++ [(c, op, r)]) = some s.stack := by
    have := Spec.run_concat (i := c) (o := op) h.legal
    rwa [hspec] at this
  have hd : Order size ((s.decided c op r).move c .failed) :=
    ⟨h.matched, h.short_push, h.short_pop, h.length_eq, hlegal,
      fun i d v hd => hl _ (h.told_push i d v hd), fun i d v hd => hl _ (h.told_pop i d v hd),
      fun i d v hd => hl _ (h.told_filling i d v hd),
      fun i q p v hd => hl _ (h.told_draining i q p v hd),
      fun d r' hr => (h.answered d r' hr).imp fun o ho => hl _ ho, h.once, h.numbered⟩
  exact hd.leave ⟨op, List.mem_append_right _ (List.mem_singleton_self _)⟩

theorem Order.reservePush (h : Order size s) (hlt : s.head + 1 < size)
    (hq : s.waitPush s.head = []) : Order size (s.reservePush c v) := by
  have hl : ∀ e ∈ s.log, e ∈ (s.reservePush c v).log := fun e he => List.mem_append_left _ he
  have hnew : (c, Op.push v, Ret.push 0) ∈ (s.reservePush c v).log :=
    List.mem_append_right _ (List.mem_singleton_self _)
  have hwait : (s.reservePush c v).waitPush s.head = [(c, v)] := by
    refine (Function.update_self ..).trans ?_
    rw [hq]
    rfl
  have hwait' : ∀ j, j ≠ s.head → (s.reservePush c v).waitPush j = s.waitPush j :=
    fun j hj => Function.update_of_ne hj ..
  have hlen := h.length_eq
  refine ⟨fun j => ?_, fun j => ?_, h.short_pop, ?_, ?_, fun j d w hd => ?_,
    fun j d w hd => hl _ (h.told_pop j d w hd), fun j d w hd => hl _ (h.told_filling j d w hd),
    fun j q p w hd => hl _ (h.told_draining j q p w hd),
    fun d r hr => (h.answered d r hr).imp fun o ho => hl _ ho, h.once, h.numbered⟩
  · have hm := h.matched j
    change (s.phase j).held ++ ((s.reservePush c v).waitPush j).map (·.2)
      = (s.waitPop j).map (·.2) ++ (s.stack ++ [v])[j]?.toList
    by_cases hj : j = s.head
    · subst hj
      rw [hq, List.getElem?_eq_none hlen.le] at hm
      rw [hwait, ← hlen, List.getElem?_concat_length, hlen]
      simpa using hm
    · rw [hwait' j hj, hm]
      congr 2
      rcases Nat.lt_or_gt_of_ne hj with hjl | hjl
      · rw [List.getElem?_append_left (by omega)]
      · rw [List.getElem?_eq_none (by omega), List.getElem?_eq_none (by simp; omega)]
  · by_cases hj : j = s.head
    · rw [hj, hwait]
      exact le_rfl
    · rw [hwait' j hj]
      exact h.short_push j
  · change (s.stack ++ [v]).length = s.head + 1
    rw [List.length_append, hlen]
    rfl
  · have hspec : (stackSpec (size - 1)).apply s.stack (.push v) = (.push 0, s.stack ++ [v]) :=
      if_neg (by omega)
    have := Spec.run_concat (i := c) (o := .push v) h.legal
    rwa [hspec] at this
  · by_cases hj : j = s.head
    · rw [hj, hwait] at hd
      cases List.mem_singleton.mp hd
      exact hnew
    · rw [hwait' j hj] at hd
      exact hl _ (h.told_push j d w hd)

theorem Order.reservePop (h : Order size s) (hpos : s.head ≠ 0)
    (hq : s.waitPop (s.head - 1) = []) : Order size (s.reservePop c) := by
  obtain ⟨st, x, hst⟩ : ∃ st x, s.stack = st ++ [x] := by
    obtain hnil | ⟨st, x, hst⟩ := List.eq_nil_or_concat' s.stack
    · exact absurd (h.length_eq.symm.trans (congrArg List.length hnil)) hpos
    · exact ⟨st, x, hst⟩
  have hlen : st.length + 1 = s.head := by
    rw [← h.length_eq, hst, List.length_append]
    rfl
  have hlast : s.stack.getLast?.getD 0 = x := by
    rw [hst]
    simp
  have hdrop : s.stack.dropLast = st := by
    rw [hst, List.dropLast_concat]
  have hl : ∀ e ∈ s.log, e ∈ (s.reservePop c).log := fun e he => List.mem_append_left _ he
  have hnew : (c, Op.pop, Ret.pop x) ∈ (s.reservePop c).log := by
    refine List.mem_append_right _ ?_
    rw [hlast]
    exact List.mem_singleton_self _
  have hwait : (s.reservePop c).waitPop (s.head - 1) = [(c, x)] := by
    refine (Function.update_self ..).trans ?_
    rw [hq, hlast]
    rfl
  have hwait' : ∀ j, j ≠ s.head - 1 → (s.reservePop c).waitPop j = s.waitPop j :=
    fun j hj => Function.update_of_ne hj ..
  refine ⟨fun j => ?_, h.short_push, fun j => ?_, ?_, ?_,
    fun j d w hd => hl _ (h.told_push j d w hd), fun j d w hd => ?_,
    fun j d w hd => hl _ (h.told_filling j d w hd),
    fun j q p w hd => hl _ (h.told_draining j q p w hd),
    fun d r hr => (h.answered d r hr).imp fun o ho => hl _ ho, h.once, h.numbered⟩
  · have hm := h.matched j
    change (s.phase j).held ++ (s.waitPush j).map (·.2)
      = ((s.reservePop c).waitPop j).map (·.2) ++ s.stack.dropLast[j]?.toList
    rw [hdrop]
    rw [hst] at hm
    by_cases hj : j = s.head - 1
    · have hjl : j = st.length := by omega
      rw [← hj] at hwait hq
      rw [hm, hwait, hq, hjl, List.getElem?_concat_length, List.getElem?_eq_none le_rfl]
      rfl
    · rw [hwait' j hj, hm]
      congr 2
      rcases Nat.lt_or_ge j st.length with hjl | hjl
      · rw [List.getElem?_append_left hjl]
      · rw [List.getElem?_eq_none hjl, List.getElem?_eq_none (by simp; omega)]
  · by_cases hj : j = s.head - 1
    · rw [hj, hwait]
      exact le_rfl
    · rw [hwait' j hj]
      exact h.short_pop j
  · change s.stack.dropLast.length = s.head - 1
    rw [hdrop]
    omega
  · have hspec : (stackSpec (size - 1)).apply s.stack .pop = (.pop x, st) := by
      rw [hst]
      simp [stackSpec]
    have := Spec.run_concat (i := c) (o := .pop) h.legal
    rw [hspec] at this
    change (stackSpec (size - 1)).run [] (s.log ++ [(c, .pop, .pop (s.stack.getLast?.getD 0))])
      = some s.stack.dropLast
    rw [hlast, hdrop]
    exact this
  · by_cases hj : j = s.head - 1
    · rw [hj, hwait] at hd
      cases List.mem_singleton.mp hd
      exact hnew
    · rw [hwait' j hj] at hd
      exact hl _ (h.told_pop j d w hd)

/-- A list with at most one element, without that one. -/
theorem filter_short {l : List (Id × ℕ)} (hl : l.length ≤ 1) (hc : (c, v) ∈ l) :
    l = [(c, v)] ∧ l.filter (fun w => w.1 ≠ c) = [] := by
  match l, hl, hc with
  | [w], _, hc =>
    cases List.mem_singleton.mp hc
    exact ⟨rfl, by simp⟩

theorem Order.lockPush (h : Order size s) (hph : s.phase i = .empty)
    (hc : (c, v) ∈ s.waitPush i) : Order size (s.lockPush c v i) := by
  obtain ⟨hl, hf⟩ := filter_short (h.short_push i) hc
  have hwait : (s.lockPush c v i).waitPush i = [] := (Function.update_self ..).trans hf
  have hphase : (s.lockPush c v i).phase i = .filling c v := Function.update_self ..
  have hwait' : ∀ j, j ≠ i → (s.lockPush c v i).waitPush j = s.waitPush j :=
    fun j hj => Function.update_of_ne hj ..
  have hphase' : ∀ j, j ≠ i → (s.lockPush c v i).phase j = s.phase j :=
    fun j hj => Function.update_of_ne hj ..
  refine ⟨fun j => ?_, fun j => ?_, h.short_pop, h.length_eq, h.legal, fun j d w hd => ?_, h.told_pop,
    fun j d w hd => ?_, fun j q p w hd => ?_, h.answered, h.once, h.numbered⟩
  · have hm := h.matched j
    change _ = (s.waitPop j).map (·.2) ++ s.stack[j]?.toList
    by_cases hj : j = i
    · rw [hj] at hm ⊢
      rw [hwait, hphase, ← hm, hph, hl]
      rfl
    · rw [hwait' j hj, hphase' j hj]
      exact hm
  · by_cases hj : j = i
    · rw [hj, hwait]
      exact Nat.zero_le _
    · rw [hwait' j hj]
      exact h.short_push j
  · by_cases hj : j = i
    · rw [hj, hwait] at hd
      exact absurd hd List.not_mem_nil
    · rw [hwait' j hj] at hd
      exact h.told_push j d w hd
  · by_cases hj : j = i
    · rw [hj, hphase] at hd
      cases hd
      exact h.told_push i c v hc
    · rw [hphase' j hj] at hd
      exact h.told_filling j d w hd
  · by_cases hj : j = i
    · rw [hj, hphase] at hd
      exact absurd hd (by simp)
    · rw [hphase' j hj] at hd
      exact h.told_draining j q p w hd

/-- **A pop that locks its slot finds the value that the stack says.** -/
theorem Order.lockPop (h : Order size s) {p : Id} (hph : s.phase i = .full p v) {w : ℕ}
    (hc : (c, w) ∈ s.waitPop i) : Order size (s.lockPop c i) := by
  obtain ⟨hl, hf⟩ := filter_short (h.short_pop i) hc
  have hm := h.matched i
  rw [hph, hl] at hm
  obtain ⟨rfl, hrest⟩ : v = w ∧ (s.waitPush i).map (·.2) = s.stack[i]?.toList := by
    exact ⟨(List.cons.inj hm).1, (List.cons.inj hm).2⟩
  have htake : s.take i = s.move p (.taken i v) := by
    unfold Lifo.take
    rw [hph]
  have hmoved : s.lockPop c i = { (s.move p (.taken i v)).move c (.draining i) with
      lock := Function.update s.lock i .busy
      waitPop := Function.update s.waitPop i []
      phase := Function.update s.phase i (.draining c p v) } := by
    unfold Lifo.lockPop
    rw [htake, hf, hph]
    rfl
  rw [hmoved]
  refine ⟨fun j => ?_, h.short_push, fun j => ?_, h.length_eq, h.legal, h.told_push,
    fun j d x hd => ?_, fun j d x hd => ?_, fun j q p' x hd => ?_, h.answered, h.once, h.numbered⟩
  · have hmj := h.matched j
    change (Function.update s.phase i (.draining c p v) j).held ++ (s.waitPush j).map (·.2)
      = (Function.update s.waitPop i [] j).map (·.2) ++ s.stack[j]?.toList
    by_cases hj : j = i
    · rw [hj, Function.update_self, Function.update_self, ← hrest]
      rfl
    · rw [Function.update_of_ne hj, Function.update_of_ne hj]
      exact hmj
  · change (Function.update s.waitPop i [] j).length ≤ 1
    by_cases hj : j = i
    · rw [hj, Function.update_self]
      exact Nat.zero_le _
    · rw [Function.update_of_ne hj]
      exact h.short_pop j
  · change (d, x) ∈ Function.update s.waitPop i [] j at hd
    by_cases hj : j = i
    · rw [hj, Function.update_self] at hd
      exact absurd hd List.not_mem_nil
    · rw [Function.update_of_ne hj] at hd
      exact h.told_pop j d x hd
  · change Function.update s.phase i (.draining c p v) j = _ at hd
    by_cases hj : j = i
    · rw [hj, Function.update_self] at hd
      exact absurd hd (by simp)
    · rw [Function.update_of_ne hj] at hd
      exact h.told_filling j d x hd
  · change Function.update s.phase i (.draining c p v) j = _ at hd
    by_cases hj : j = i
    · rw [hj, Function.update_self] at hd
      cases hd
      exact h.told_pop i c v hc
    · rw [Function.update_of_ne hj] at hd
      exact h.told_draining j q p' x hd

/-- The phase of a slot changes, and keeps what it holds. -/
theorem Order.setPhase (h : Order size s) {s' : Lifo} {x : Phase} (hx : x.held = (s.phase i).held)
    (hfill : ∀ d w, x ≠ .filling d w) (hdrain : ∀ q p w, x ≠ .draining q p w)
    (hphase : s'.phase = Function.update s.phase i x) (hpush : s'.waitPush = s.waitPush)
    (hpop : s'.waitPop = s.waitPop) (hstack : s'.stack = s.stack) (hhead : s'.head = s.head)
    (hlog : s'.log = s.log) (hevents : s'.events = s.events) (hcalls : s'.calls = s.calls) :
    Order size s' := by
  refine ⟨fun j => ?_, by rw [hpush]; exact h.short_push, by rw [hpop]; exact h.short_pop,
    by rw [hstack, hhead]; exact h.length_eq, by rw [hlog, hstack]; exact h.legal,
    by rw [hpush, hlog]; exact h.told_push, by rw [hpop, hlog]; exact h.told_pop,
    fun j d w hd => ?_, fun j q p w hd => ?_, by rw [hevents, hlog]; exact h.answered,
    by rw [hevents]; exact h.once, by rw [hevents, hcalls]; exact h.numbered⟩
  · have hm := h.matched j
    rw [hphase, hpush, hpop, hstack]
    by_cases hj : j = i
    · rw [hj] at hm ⊢
      rw [Function.update_self, hx]
      exact hm
    · rw [Function.update_of_ne hj]
      exact hm
  · rw [hphase] at hd
    by_cases hj : j = i
    · rw [hj, Function.update_self] at hd
      exact absurd hd (hfill d w)
    · rw [Function.update_of_ne hj] at hd
      rw [hlog]
      exact h.told_filling j d w hd
  · rw [hphase] at hd
    by_cases hj : j = i
    · rw [hj, Function.update_self] at hd
      exact absurd hd (hdrain q p w)
    · rw [Function.update_of_ne hj] at hd
      rw [hlog]
      exact h.told_draining j q p w hd

/-- **Every step without overtaking** keeps the order, and a pop reads what the stack says. -/
theorem step_order {s' : Lifo} {pc pc' : Pc} {cmd : Cmd} (hi : Inv size s) (ho : Order size s)
    (hl : Loc t s pc) (ht : Told s pc) (hok : Unqueued t s pc cmd)
    (hstep : step t s pc cmd = some (s', pc')) : Order size s' ∧ Told s' pc' := by
  cases cmd with
  | call op =>
    cases pc with
    | returned =>
      cases op with
      | push v =>
        cases hstep
        exact ⟨ho.enter t _, trivial⟩
      | pop =>
        cases hstep
        exact ⟨ho.enter t _, trivial⟩
    | _ => cases hstep
  | resume =>
    cases pc with
    | returned => cases hstep
    | pushHead c v =>
      simp only [step] at hstep
      split_ifs at hstep with hfull
      · cases hstep
        refine ⟨ho.fail (if_pos ?_), trivial⟩
        rw [ho.length_eq, hfull, hi.1.bound]
      · cases hstep
        exact ⟨ho, trivial⟩
    | pushCas c v head =>
      simp only [step] at hstep
      split_ifs at hstep with heq
      · cases hstep
        refine ⟨ho.reservePush ?_ (heq ▸ hok heq), trivial⟩
        rw [heq, ← hi.1.bound]
        exact hl.extra.2
      · cases hstep
        exact ⟨ho, trivial⟩
    | pushLock c v i =>
      simp only [step] at hstep
      split_ifs at hstep with hlock
      · cases hstep
        exact ⟨ho.lockPush (hi.1.phase_of_empty hlock)
          (hi.1.waitPush_mem.mpr (hl.here c _ rfl).2), trivial⟩
      · cases hstep
        exact ⟨ho, trivial⟩
    | pushStore c v i =>
      cases hstep
      exact ⟨⟨ho.matched, ho.short_push, ho.short_pop, ho.length_eq, ho.legal, ho.told_push,
        ho.told_pop, ho.told_filling, ho.told_draining, ho.answered, ho.once, ho.numbered⟩, trivial⟩
    | pushUnlock c v i =>
      cases hstep
      have hph := hi.1.filling_iff.mpr (hl.here c _ rfl).2
      have ho' : Order size (s.unlockPush c v i) :=
        ho.setPhase (x := .full c v) (i := i) (by rw [hph]; rfl) (by simp) (by simp) rfl rfl rfl rfl rfl
          rfl rfl rfl
      exact ⟨ho'.leave ⟨_, ho.told_filling i c v hph⟩, trivial⟩
    | popHead c =>
      simp only [step] at hstep
      split_ifs at hstep with hempty
      · cases hstep
        refine ⟨ho.fail ?_, trivial⟩
        have hnil : s.stack = [] := List.eq_nil_of_length_eq_zero (ho.length_eq.trans hempty)
        rw [hnil]
        rfl
      · cases hstep
        exact ⟨ho, trivial⟩
    | popCas c head =>
      simp only [step] at hstep
      split_ifs at hstep with heq
      · cases hstep
        refine ⟨ho.reservePop ?_ (heq ▸ hok heq), trivial⟩
        rw [heq]
        exact hl.extra.2
      · cases hstep
        exact ⟨ho, trivial⟩
    | popLock c i =>
      simp only [step] at hstep
      split_ifs at hstep with hlock
      · cases hstep
        obtain ⟨p, v, hph⟩ := hi.1.phase_of_full hlock
        obtain ⟨w, hw⟩ := hi.1.waitPop_mem.mpr (hl.here c _ rfl).2
        exact ⟨ho.lockPop hph hw, trivial⟩
      · cases hstep
        exact ⟨ho, trivial⟩
    | popValue c i =>
      cases hstep
      obtain ⟨-, hph⟩ := hi.1.source_of_draining (hl.here c _ rfl).2
      refine ⟨ho.setPhase (x := .drained c) (i := i) ?_ (by simp) (by simp) rfl rfl rfl rfl rfl rfl rfl
        rfl, ho.told_draining i c _ _ hph⟩
      rw [hph]
      rfl
    | popUnlock c i v =>
      cases hstep
      have hph := hi.1.drained_iff.mpr (hl.here c _ rfl).2
      have ho' : Order size (s.unlockPop c i) :=
        ho.setPhase (x := .empty) (i := i) (by rw [hph]; rfl) (by simp) (by simp) rfl rfl rfl rfl rfl
          rfl rfl rfl
      exact ⟨ho'.leave ⟨_, ht⟩, trivial⟩

theorem orderGuarantee (size : ℕ) :
    RelyGuarantee step Unqueued (fun s => Inv size s ∧ Order size s)
      (fun t s pc => Loc t s pc ∧ Told s pc) Rely where
  guarantee := fun _ _ _ _ _ _ hi h hok hstep =>
    have hg := step_guarantee hi.1 h.1 hstep
    have ho := step_order hi.1 hi.2 h.1 h.2 hok hstep
    ⟨⟨⟨hg.slots, hg.ledger⟩, ho.1⟩, ⟨hg.loc, ho.2⟩, hg.rely⟩
  stable := by
    intro u s s' pc _ hr h
    refine ⟨h.1.stable hr, ?_⟩
    have ht := h.2
    cases pc with
    | popUnlock c i v => exact hr.log ht
    | _ => trivial

theorem init_order {size : ℕ} (junk : ℕ → ℕ) : Order size (init size junk).shared := by
  refine ⟨fun _ => rfl, fun _ => Nat.zero_le _, fun _ => Nat.zero_le _, rfl, rfl,
    fun _ _ _ hd => absurd hd List.not_mem_nil, fun _ _ _ hd => absurd hd List.not_mem_nil,
    fun _ _ _ hd => ?_, fun _ _ _ _ hd => ?_, fun _ _ hr => absurd hr List.not_mem_nil,
    fun _ _ _ ho => absurd ho List.not_mem_nil, fun _ _ ho => absurd ho List.not_mem_nil⟩
  · exact absurd hd (by simp [init, alloc])
  · exact absurd hd (by simp [init, alloc])

/-- **`clifo` is a stack in the runs without overtaking**, for every size from one on and
every number of threads. -/
theorem clifo_linearizable_unqueued (hsize : 1 ≤ size) (junk : ℕ → ℕ) (es : List (ℕ × Cmd))
    (c : Conf Lifo Pc) (hrun : run sys (init size junk) es = some c)
    (hok : StepsMeet sys (onThread Unqueued) (init size junk) es) :
    StackLike size c.shared.events := by
  obtain ⟨hi, hloc⟩ := init_holds hsize junk
  obtain ⟨⟨hi, ho⟩, -⟩ := (orderGuarantee size).holds_run
    (c := init size junk) ⟨⟨hi, init_order junk⟩, fun t => ⟨hloc t, trivial⟩⟩ hok hrun
  have hlin := hi.2.tracks.linearizes (S := stackSpec (size - 1))
    (by rw [show (stackSpec (size - 1)).init = [] from rfl, ho.legal]; rfl) ho.answered
  exact ⟨⟨_, hlin⟩, lifoOrder_of_linearizes hlin ho.once⟩

/-- Two pushes and two pops that overlap at different slots. -/
def overlappingRun : List (ℕ × Cmd) :=
  [(0, .call (.push 5)), (0, .resume), (0, .resume),
   (1, .call (.push 6)), (1, .resume), (1, .resume), (1, .resume), (1, .resume), (1, .resume),
   (2, .call .pop), (2, .resume), (2, .resume), (3, .call .pop), (3, .resume), (3, .resume),
   (0, .resume), (0, .resume), (0, .resume), (3, .resume), (3, .resume), (3, .resume),
   (2, .resume), (2, .resume), (2, .resume)]

theorem clifo_linearizable_overlapping :
    ∃ c, run sys (init 3 fun _ => 0) overlappingRun = some c
      ∧ .ret (3, 0) (.pop 5) ∈ c.shared.events ∧ StackLike 3 c.shared.events := by
  have hrun : (run sys (init 3 fun _ => 0) overlappingRun).map
      (fun c => decide (.ret (3, 0) (.pop 5) ∈ c.shared.events)) = some true := by decide +kernel
  obtain ⟨c, hc, hret⟩ := Option.map_eq_some_iff.mp hrun
  have hok : StepsMeet sys (onThread Unqueued) (init 3 fun _ => 0) overlappingRun := by
    decide +kernel
  exact ⟨c, hc, of_decide_eq_true hret, clifo_linearizable_unqueued (by decide) _ _ c hc hok⟩

/-- After the pushes of 5 and 6 a pop reserves the slot of 6 and stops; the next pop gets
5.  Two more pushes reserve the slots again, and a pop that begins only now overtakes the
first one and gets 6. -/
def overtakingRun : List (ℕ × Cmd) :=
  [(0, .call (.push 5)), (0, .resume), (0, .resume), (0, .resume), (0, .resume), (0, .resume),
   (0, .call (.push 6)), (0, .resume), (0, .resume), (0, .resume), (0, .resume), (0, .resume),
   (1, .call .pop), (1, .resume), (1, .resume),
   (2, .call .pop), (2, .resume), (2, .resume), (2, .resume), (2, .resume), (2, .resume),
   (0, .call (.push 7)), (0, .resume), (0, .resume), (0, .resume), (0, .resume), (0, .resume),
   (0, .call (.push 8)), (0, .resume), (0, .resume),
   (2, .call .pop), (2, .resume), (2, .resume), (2, .resume), (2, .resume), (2, .resume)]

/-- The calls and returns of that run. -/
def overtakingEvents : List (Event Id Op Ret) :=
  [.call (0, 0) (.push 5), .ret (0, 0) (.push 0), .call (0, 1) (.push 6), .ret (0, 1) (.push 0),
   .call (1, 0) .pop, .call (2, 0) .pop, .ret (2, 0) (.pop 5), .call (0, 2) (.push 7),
   .ret (0, 2) (.push 0), .call (0, 3) (.push 8), .call (2, 1) .pop, .ret (2, 1) (.pop 6)]

theorem overtakingEvents_not_lifo : ¬ LifoOrder overtakingEvents := by
  intro h
  have hdist : DistinctPushes overtakingEvents := by
    intro c c' v hc hc'
    simp only [overtakingEvents, List.mem_cons, List.not_mem_nil, or_false, Event.call.injEq,
      Op.push.injEq, reduceCtorEq, and_false, false_or] at hc hc'
    rcases hc with ⟨rfl, rfl⟩ | ⟨rfl, rfl⟩ | ⟨rfl, rfl⟩ | ⟨rfl, rfl⟩ <;>
      rcases hc' with ⟨rfl, hv⟩ | ⟨rfl, hv⟩ | ⟨rfl, hv⟩ | ⟨rfl, hv⟩ <;> first | rfl | cases hv
  obtain ⟨q', hq', -, hunique⟩ := h hdist (0, 0) (0, 1) (2, 0) 5 6 (by decide) (by decide)
    (by decide) (by decide) (by decide) (by decide)
  rw [← hunique (2, 1) (by decide)] at hq'
  exact absurd hq' (by decide)

/-- **A run with overtaking that is not that of a stack.** -/
theorem overtaken_pop_breaks_lifo :
    ∃ c, run sys (init 3 fun _ => 0) overtakingRun = some c ∧ ¬ StackLike 3 c.shared.events := by
  have hrun : (run sys (init 3 fun _ => 0) overtakingRun).map (·.shared.events)
      = some overtakingEvents := by decide +kernel
  obtain ⟨c, hc, hev⟩ := Option.map_eq_some_iff.mp hrun
  refine ⟨c, hc, fun h => ?_⟩
  rw [hev] at h
  exact overtakingEvents_not_lifo h.2

end Order

end Clifo
