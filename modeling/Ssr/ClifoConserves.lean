/-
# `clifo` conserves values and cannot jam

* `relyGuarantee` — the invariant holds in every interleaving;
* `clifo_conserves` — nothing is lost or read twice, the stack at rest holds what was not
  read, and whoever waits for a slot, some call at that slot can go on.
-/
import Ssr.ClifoSlots

open Interleaving Linearizability

namespace Clifo

/-! ## Rely-guarantee -/

/-- The shared invariant. -/
def Inv (size : ℕ) (s : Lifo) : Prop := Slots size s ∧ Ledger s

/-- What a step of thread `t` has to establish. -/
structure Guarantee (size t : ℕ) (s s' : Lifo) (pc' : Pc) : Prop where
  slots : Slots size s'
  ledger : Ledger s'
  loc : Loc t s' pc'
  rely : ∀ u, u ≠ t → Rely u s s'

section Steps

variable {size t i v head : ℕ} {s s' : Lifo} {c : Id} {pc pc' : Pc} {op : Op} {r : Ret}

/-- The thread goes on with its call. -/
theorem Loc.go (h : Loc t s pc) (hpc : ∀ d x, pc.place = some (d, x) → d = c) (hct : c.1 = t)
    (hself : pc'.place = some (c, s'.place c) ∨ pc'.place = none ∧ ¬ (s'.place c).Active)
    (hother : ∀ d, d ≠ c → s'.place d = s.place d ∨ ¬ (s'.place d).Active)
    (hextra : Extra t s' pc') : Loc t s' pc' := by
  refine ⟨fun d hd hact => ?_, fun d x hd => ?_, hextra⟩
  · by_cases hdc : d = c
    · rw [hdc] at hact ⊢
      rcases hself with heq | ⟨-, hnot⟩
      · exact heq
      · exact absurd hact hnot
    · rcases hother d hdc with heq | hnot
      · rw [heq] at hact
        exact absurd (hpc d _ (h.mine d hd hact)) hdc
      · exact absurd hact hnot
  · rcases hself with heq | ⟨heq, -⟩
    · rw [heq] at hd
      cases hd
      exact ⟨hct, rfl⟩
    · rw [heq] at hd
      exact absurd hd (by simp)

/-- A step that leaves the shared state alone. -/
theorem Guarantee.stay (hi : Inv size s) (h : Loc t s pc) (hpc : pc'.place = pc.place)
    (hextra : Extra t s pc') : Guarantee size t s s pc' := by
  refine ⟨hi.1, hi.2, ⟨fun d hd hact => hpc.trans (h.mine d hd hact), fun d x hd => ?_, hextra⟩,
    fun u _ => ?_⟩
  · exact h.here d x (hpc.symm.trans hd)
  · exact ⟨rfl, rfl, fun _ _ => Or.inl rfl, fun _ _ _ _ _ => ⟨rfl, rfl⟩, fun _ _ hp => hp,
      List.Subset.refl _, List.Subset.refl _, List.Subset.refl _⟩

/-- A step that moves the call of the thread, and no other. -/
theorem Rely.of_move {u : ℕ} (hct : c.1 = t) (hu : u ≠ t) (hbound : s'.bound = s.bound)
    (hcalls : s'.calls u = s.calls u) (hother : ∀ d, d ≠ c → s'.place d = s.place d)
    (hself : ∀ v, (s.place c).pushed = some v → (s'.place c).pushed = some v)
    (hfill : ∀ (d : Id) j w, d ≠ c → s.place d = .filling j w →
      s'.value j = s.value j ∧ s'.source j = s.source j)
    (hreads : s.reads ⊆ s'.reads) (hlog : s.log ⊆ s'.log) (hevents : s.events ⊆ s'.events) :
    Rely u s s' := by
  have hne : ∀ d : Id, d.1 = u → d ≠ c := by
    rintro d hd rfl
    exact hu (hd.symm.trans hct)
  refine ⟨hbound, hcalls, fun d hd => Or.inl (hother d (hne d hd)),
    fun d j w hd hp => hfill d j w (hne d hd) hp, fun p w hp => ?_, hreads, hlog, hevents⟩
  unfold Lifo.Pushed at hp ⊢
  by_cases hpc : p = c
  · rw [hpc] at hp ⊢
    exact hself w hp
  · rw [hother p hpc]
    exact hp

theorem guarantee_enter (hi : Inv size s) (h : Loc t s .returned)
    (hpc : pc'.place = some ((t, s.calls t), .idle)) (hextra : Extra t (s.enter t op) pc') :
    Guarantee size t s (s.enter t op) pc' := by
  have hidle : s.place (t, s.calls t) = .idle := by
    by_contra hne
    exact absurd (hi.2.fresh _ hne) (lt_irrefl _)
  refine ⟨⟨hi.1.bound, hi.1.head_lt, hi.1.lock, hi.1.balance, hi.1.listed, hi.1.nodup_push,
    hi.1.nodup_pop, hi.1.slot_lt, hi.1.stored⟩, hi.2.enter t op, ?_, fun u hu => ?_⟩
  · refine h.go (c := (t, s.calls t)) (fun d x hd => absurd hd (by simp [Pc.place])) rfl
      (Or.inl ?_) (fun d _ => Or.inl rfl) hextra
    rw [hpc]
    exact congrArg (fun x => some ((t, s.calls t), x)) hidle.symm
  · exact Rely.of_move (c := (t, s.calls t)) rfl hu rfl (Function.update_of_ne hu ..) (fun _ _ => rfl)
      (fun _ hv => hv) (fun _ _ _ _ _ => ⟨rfl, rfl⟩) (List.Subset.refl _) (List.Subset.refl _)
      (List.subset_append_left _ _)

theorem guarantee_fail (hi : Inv size s) (h : Loc t s pc) (hpc : pc.place = some (c, .idle))
    (hlt : c.2 < s.calls t) (hcall : .call c op ∈ s.events) :
    Guarantee size t s (s.fail c op r) .returned := by
  obtain ⟨hct, hidle⟩ := h.here c _ hpc
  have hself : (s.fail c op r).place c = .failed := Function.update_self ..
  have hother : ∀ d, d ≠ c → (s.fail c op r).place d = s.place d :=
    fun d hd => Function.update_of_ne hd ..
  refine ⟨?_, ?_, ?_, fun u hu => ?_⟩
  · have hm := hi.1.move (x := .failed) (by rw [hidle]; rfl) rfl
    exact ⟨hm.bound, hm.head_lt, hm.lock, hm.balance, hm.listed, hm.nodup_push, hm.nodup_pop,
      hm.slot_lt, hm.stored⟩
  · refine (hi.2.decide hidle (by rw [hct]; exact hlt) hcall (by simp) (by simp) (by simp)
      (by simp)).leave ?_ fun v _ hp => ?_
    · rw [move_place_self]
      simp
    · unfold Lifo.Popped at hp
      rw [move_place_self] at hp
      exact absurd hp (by simp [Place.Pops])
  · refine h.go (fun d x hd => ?_) hct (Or.inr ⟨rfl, ?_⟩) (fun d hd => Or.inl (hother d hd)) trivial
    · rw [hpc] at hd
      cases hd
      rfl
    · rw [hself]
      simp [Place.Active]
  · refine Rely.of_move hct hu rfl rfl hother (fun v hv => ?_) (fun _ _ _ _ _ => ⟨rfl, rfl⟩)
      (List.Subset.refl _) (List.subset_append_left _ _) (List.subset_append_left _ _)
    rw [hidle] at hv
    exact absurd hv (by simp [Place.pushed])

theorem guarantee_reservePush (hi : Inv size s) (h : Loc t s (.pushCas c v s.head)) :
    Guarantee size t s (s.reservePush c v) (.pushLock c v s.head) := by
  obtain ⟨hct, hidle⟩ := h.here c _ rfl
  obtain ⟨⟨hlt, hcall⟩, hroom⟩ := h.extra
  have hother : ∀ d, d ≠ c → (s.reservePush c v).place d = s.place d :=
    fun d hd => Function.update_of_ne hd ..
  have hself : (s.reservePush c v).place c = .pushWaits s.head v := Function.update_self ..
  refine ⟨hi.1.reservePush hidle (hi.1.bound ▸ hroom), ?_, ?_, fun u hu => ?_⟩
  · exact (hi.2.decide hidle (by rw [hct]; exact hlt) hcall (by simp) (by simp) (by simp)
      (by simp)).congr rfl rfl rfl rfl fun d => SameKind.refl _
  · refine h.go (fun d x hd => ?_) hct (Or.inl ?_) (fun d hd => Or.inl (hother d hd)) trivial
    · cases hd
      rfl
    · rw [hself]
      rfl
  · refine Rely.of_move hct hu rfl rfl hother (fun w hw => ?_) (fun _ _ _ _ _ => ⟨rfl, rfl⟩)
      (List.Subset.refl _) (List.subset_append_left _ _) (List.Subset.refl _)
    rw [hidle] at hw
    exact absurd hw (by simp [Place.pushed])

theorem guarantee_reservePop (hi : Inv size s) (h : Loc t s (.popCas c s.head)) :
    Guarantee size t s (s.reservePop c) (.popLock c (s.head - 1)) := by
  obtain ⟨hct, hidle⟩ := h.here c _ rfl
  obtain ⟨⟨hlt, hcall⟩, hpos⟩ := h.extra
  have hother : ∀ d, d ≠ c → (s.reservePop c).place d = s.place d :=
    fun d hd => Function.update_of_ne hd ..
  have hself : (s.reservePop c).place c = .popWaits (s.head - 1) := Function.update_self ..
  refine ⟨hi.1.reservePop hidle hpos, ?_, ?_, fun u hu => ?_⟩
  · exact (hi.2.decide hidle (by rw [hct]; exact hlt) hcall (by simp) (by simp) (by simp)
      (by simp)).congr rfl rfl rfl rfl fun d => SameKind.refl _
  · refine h.go (fun d x hd => ?_) hct (Or.inl ?_) (fun d hd => Or.inl (hother d hd)) trivial
    · cases hd
      rfl
    · rw [hself]
      rfl
  · refine Rely.of_move hct hu rfl rfl hother (fun w hw => ?_) (fun _ _ _ _ _ => ⟨rfl, rfl⟩)
      (List.Subset.refl _) (List.subset_append_left _ _) (List.Subset.refl _)
    rw [hidle] at hw
    exact absurd hw (by simp [Place.pushed])

theorem guarantee_lockPush (hi : Inv size s) (h : Loc t s (.pushLock c v i))
    (hl : s.lock i = .empty) : Guarantee size t s (s.lockPush c v i) (.pushStore c v i) := by
  obtain ⟨hct, hc⟩ := h.here c _ rfl
  have hother : ∀ d, d ≠ c → (s.lockPush c v i).place d = s.place d :=
    fun d hd => Function.update_of_ne hd ..
  have hself : (s.lockPush c v i).place c = .filling i v := Function.update_self ..
  refine ⟨hi.1.lockPush hc hl, ?_, ?_, fun u hu => ?_⟩
  · refine hi.2.congr rfl rfl rfl rfl fun d => sameKind_move ?_ d
    rw [hc]
    simp [SameKind, Place.pushed, Place.Pops]
  · refine h.go (fun d x hd => ?_) hct (Or.inl ?_) (fun d hd => Or.inl (hother d hd)) trivial
    · cases hd
      rfl
    · rw [hself]
      rfl
  · refine Rely.of_move hct hu rfl rfl hother (fun w hw => ?_) (fun _ _ _ _ _ => ⟨rfl, rfl⟩)
      (List.Subset.refl _) (List.Subset.refl _) (List.Subset.refl _)
    rw [hself]
    rw [hc] at hw
    exact hw

theorem guarantee_store (hi : Inv size s) (h : Loc t s (.pushStore c v i)) :
    Guarantee size t s (s.store c v i) (.pushUnlock c v i) := by
  obtain ⟨hct, hc⟩ := h.here c _ rfl
  have hph := hi.1.filling_iff.mpr hc
  refine ⟨hi.1.store hc, hi.2.congr rfl rfl rfl rfl fun d => SameKind.refl _, ?_, fun u hu => ?_⟩
  · refine h.go (c := c) (fun d x hd => ?_) hct (Or.inl ?_) (fun d _ => Or.inl rfl) ?_
    · cases hd
      rfl
    · exact congrArg (fun x => some (c, x)) hc.symm
    · exact ⟨Function.update_self .., Function.update_self ..⟩
  · refine Rely.of_move hct hu rfl rfl (fun _ _ => rfl) (fun w hw => hw) (fun d j w hd hp => ?_)
      (List.Subset.refl _) (List.Subset.refl _) (List.Subset.refl _)
    have hji : j ≠ i := by
      rintro rfl
      have hd' := hi.1.filling_iff.mpr hp
      rw [hph] at hd'
      exact hd (Phase.filling.inj hd').1.symm
    exact ⟨Function.update_of_ne hji .., Function.update_of_ne hji ..⟩

theorem guarantee_unlockPush (hi : Inv size s) (h : Loc t s (.pushUnlock c v i)) :
    Guarantee size t s ((s.unlockPush c v i).leave c (.push 0)) .returned := by
  obtain ⟨hct, hc⟩ := h.here c _ rfl
  have hother : ∀ d, d ≠ c → (s.unlockPush c v i).place d = s.place d :=
    fun d hd => Function.update_of_ne hd ..
  have hself : (s.unlockPush c v i).place c = .full i v := Function.update_self ..
  have hs := hi.1.unlockPush hc h.extra.1 h.extra.2
  refine ⟨⟨hs.bound, hs.head_lt, hs.lock, hs.balance, hs.listed, hs.nodup_push, hs.nodup_pop,
    hs.slot_lt, hs.stored⟩, ?_, ?_, fun u hu => ?_⟩
  · have hl : Ledger (s.unlockPush c v i) := by
      refine hi.2.congr rfl rfl rfl rfl fun d => sameKind_move ?_ d
      rw [hc]
      simp [SameKind, Place.pushed, Place.Pops]
    refine hl.leave ?_ fun w hw => absurd hw (by simp)
    rw [hself]
    simp
  · refine h.go (fun d x hd => ?_) hct (Or.inr ⟨rfl, ?_⟩) (fun d hd => Or.inl (hother d hd)) trivial
    · cases hd
      rfl
    · change ¬ ((s.unlockPush c v i).place c).Active
      rw [hself]
      simp [Place.Active]
  · refine Rely.of_move hct hu rfl rfl hother (fun w hw => ?_) (fun _ _ _ _ _ => ⟨rfl, rfl⟩)
      (List.Subset.refl _) (List.Subset.refl _) (List.subset_append_left _ _)
    change ((s.unlockPush c v i).place c).pushed = _
    rw [hself]
    rw [hc] at hw
    exact hw

theorem guarantee_lockPop (hi : Inv size s) (h : Loc t s (.popLock c i)) (hl : s.lock i = .full) :
    Guarantee size t s (s.lockPop c i) (.popValue c i) := by
  obtain ⟨hct, hc⟩ := h.here c _ rfl
  obtain ⟨p, v, hph⟩ := hi.1.phase_of_full hl
  have hp := hi.1.full_iff.mp hph
  have hpc : p ≠ c := by
    rintro rfl
    rw [hc] at hp
    exact absurd hp (by simp)
  have htake : s.take i = s.move p (.taken i v) := by
    unfold Lifo.take
    rw [hph]
  have hmoved : s.lockPop c i = { (s.move p (.taken i v)).move c (.draining i) with
      lock := Function.update s.lock i .busy
      waitPop := Function.update s.waitPop i ((s.waitPop i).filter fun w => w.1 ≠ c)
      phase := Function.update s.phase i ((s.phase i).drain c) } := by
    unfold Lifo.lockPop
    rw [htake]
  have hself : (s.lockPop c i).place c = .draining i := by
    rw [hmoved]
    exact move_place_self
  have hval : (s.lockPop c i).place p = .taken i v := by
    rw [hmoved]
    exact (move_place_of_ne hpc).trans move_place_self
  have hother : ∀ d, d ≠ c → d ≠ p → (s.lockPop c i).place d = s.place d := fun d h1 h2 => by
    rw [hmoved]
    exact (move_place_of_ne h1).trans (move_place_of_ne h2)
  have hkind : ∀ d, SameKind (s.place d) ((s.lockPop c i).place d) := by
    intro d
    by_cases hdc : d = c
    · rw [hdc, hself, hc]
      simp [SameKind, Place.pushed, Place.Pops]
    · by_cases hdp : d = p
      · rw [hdp, hval, hp]
        simp [SameKind, Place.pushed, Place.Pops]
      · rw [hother d hdc hdp]
        exact SameKind.refl _
  refine ⟨hi.1.lockPop hc hl, ?_, ?_, fun u hu => ?_⟩
  · refine hi.2.congr ?_ ?_ ?_ ?_ hkind <;> rw [hmoved] <;> rfl
  · refine h.go (fun d x hd => ?_) hct (Or.inl ?_) (fun d hd => ?_) trivial
    · cases hd
      rfl
    · rw [hself]
      rfl
    · by_cases hdp : d = p
      · rw [hdp, hval]
        exact Or.inr (by simp [Place.Active])
      · exact Or.inl (hother d hd hdp)
  · refine ⟨by rw [hmoved]; rfl, by rw [hmoved]; rfl, fun d hd => ?_, fun d j w hd hw => ?_,
      fun d w hw => (hkind d).1.trans hw, ?_, ?_, ?_⟩
    · have hdc : d ≠ c := by
        rintro rfl
        exact hu (hd.symm.trans hct)
      by_cases hdp : d = p
      · rw [hdp, hval, hp]
        exact Or.inr (by simp [Place.Active])
      · exact Or.inl (hother d hdc hdp)
    · rw [hmoved]
      exact ⟨rfl, rfl⟩
    · rw [hmoved]
      exact List.Subset.refl _
    · rw [hmoved]
      exact List.Subset.refl _
    · rw [hmoved]
      exact List.Subset.refl _

theorem guarantee_load (hi : Inv size s) (h : Loc t s (.popValue c i)) :
    Guarantee size t s (s.load c i) (.popUnlock c i (s.value i)) := by
  obtain ⟨hct, hc⟩ := h.here c _ rfl
  obtain ⟨hp, hph⟩ := hi.1.source_of_draining hc
  have hpc : s.source i ≠ c := by
    intro heq
    rw [heq, hc] at hp
    exact absurd hp (by simp)
  have hself : (s.load c i).place c = .drained i := Function.update_self ..
  have hval : (s.load c i).place (s.source i) = .read (s.value i) :=
    (Function.update_of_ne hpc ..).trans (Function.update_self ..)
  have hother : ∀ d, d ≠ c → d ≠ s.source i → (s.load c i).place d = s.place d :=
    fun d h1 h2 => (Function.update_of_ne h1 ..).trans (Function.update_of_ne h2 ..)
  refine ⟨hi.1.load hc, hi.2.load hc hp, ?_, fun u hu => ?_⟩
  · refine h.go (fun d x hd => ?_) hct (Or.inl ?_) (fun d hd => ?_) ?_
    · cases hd
      rfl
    · rw [hself]
      rfl
    · by_cases hdp : d = s.source i
      · rw [hdp, hval]
        exact Or.inr (by simp [Place.Active])
      · exact Or.inl (hother d hd hdp)
    · refine ⟨s.source i, List.mem_append_right _ (List.mem_singleton_self _), ?_⟩
      unfold Lifo.Pushed
      rw [hval]
      rfl
  · refine ⟨rfl, rfl, fun d hd => ?_, fun d j w hd hw => ⟨rfl, rfl⟩, fun d w hw => ?_,
      List.subset_append_left _ _, List.Subset.refl _, List.Subset.refl _⟩
    · have hdc : d ≠ c := by
        rintro rfl
        exact hu (hd.symm.trans hct)
      by_cases hdp : d = s.source i
      · rw [hdp, hval, hp]
        exact Or.inr (by simp [Place.Active])
      · exact Or.inl (hother d hdc hdp)
    · unfold Lifo.Pushed at hw ⊢
      by_cases hdc : d = c
      · rw [hdc, hc] at hw
        exact absurd hw (by simp [Place.pushed])
      · by_cases hdp : d = s.source i
        · rw [hdp, hval]
          rw [hdp, hp] at hw
          exact hw
        · rw [hother d hdc hdp]
          exact hw

theorem guarantee_unlockPop (hi : Inv size s) (h : Loc t s (.popUnlock c i v)) :
    Guarantee size t s ((s.unlockPop c i).leave c (.pop v)) .returned := by
  obtain ⟨hct, hc⟩ := h.here c _ rfl
  have hother : ∀ d, d ≠ c → (s.unlockPop c i).place d = s.place d :=
    fun d hd => Function.update_of_ne hd ..
  have hself : (s.unlockPop c i).place c = .popped := Function.update_self ..
  have hs := hi.1.unlockPop hc
  have hkind : ∀ d, SameKind (s.place d) ((s.unlockPop c i).place d) := fun d => by
    refine sameKind_move ?_ d
    rw [hc]
    simp [SameKind, Place.pushed, Place.Pops]
  refine ⟨⟨hs.bound, hs.head_lt, hs.lock, hs.balance, hs.listed, hs.nodup_push, hs.nodup_pop,
    hs.slot_lt, hs.stored⟩, ?_, ?_, fun u hu => ?_⟩
  · have hl : Ledger (s.unlockPop c i) := hi.2.congr rfl rfl rfl rfl hkind
    refine hl.leave ?_ fun w hw _ => ?_
    · rw [hself]
      simp
    · obtain ⟨p, hp, hv⟩ := h.extra
      cases hw
      exact ⟨p, hp, (hkind p).1.trans hv⟩
  · refine h.go (fun d x hd => ?_) hct (Or.inr ⟨rfl, ?_⟩) (fun d hd => Or.inl (hother d hd)) trivial
    · cases hd
      rfl
    · change ¬ ((s.unlockPop c i).place c).Active
      rw [hself]
      simp [Place.Active]
  · exact Rely.of_move hct hu rfl rfl hother (fun w hw => (hkind c).1.trans hw)
      (fun _ _ _ _ _ => ⟨rfl, rfl⟩) (List.Subset.refl _) (List.Subset.refl _)
      (List.subset_append_left _ _)

/-- **Every step** keeps the invariant and what the other threads rely on. -/
theorem step_guarantee {cmd : Cmd} (hi : Inv size s) (h : Loc t s pc)
    (hstep : step t s pc cmd = some (s', pc')) : Guarantee size t s s' pc' := by
  cases cmd with
  | call op =>
    cases pc with
    | returned =>
      cases op with
      | push v =>
        cases hstep
        refine guarantee_enter hi h rfl ⟨?_, List.mem_append_right _ (List.mem_singleton_self _)⟩
        change s.calls t < Function.update s.calls t (s.calls t + 1) t
        rw [Function.update_self]
        exact Nat.lt_succ_self _
      | pop =>
        cases hstep
        refine guarantee_enter hi h rfl ⟨?_, List.mem_append_right _ (List.mem_singleton_self _)⟩
        change s.calls t < Function.update s.calls t (s.calls t + 1) t
        rw [Function.update_self]
        exact Nat.lt_succ_self _
    | _ => cases hstep
  | resume =>
    cases pc with
    | returned => cases hstep
    | pushHead c v =>
      obtain ⟨hlt, hcall⟩ := h.extra
      simp only [step] at hstep
      split_ifs at hstep with hfull
      · cases hstep
        exact guarantee_fail hi h rfl hlt hcall
      · cases hstep
        refine Guarantee.stay hi h rfl ⟨⟨hlt, hcall⟩, ?_⟩
        have hb := hi.1.bound
        have hh := hi.1.head_lt
        omega
    | pushCas c v head =>
      obtain ⟨⟨hlt, hcall⟩, hroom⟩ := h.extra
      simp only [step] at hstep
      split_ifs at hstep with heq
      · cases hstep
        subst heq
        exact guarantee_reservePush hi h
      · cases hstep
        exact Guarantee.stay hi h rfl ⟨hlt, hcall⟩
    | pushLock c v i =>
      simp only [step] at hstep
      split_ifs at hstep with hl
      · cases hstep
        exact guarantee_lockPush hi h hl
      · cases hstep
        exact Guarantee.stay hi h rfl trivial
    | pushStore c v i =>
      cases hstep
      exact guarantee_store hi h
    | pushUnlock c v i =>
      cases hstep
      exact guarantee_unlockPush hi h
    | popHead c =>
      obtain ⟨hlt, hcall⟩ := h.extra
      simp only [step] at hstep
      split_ifs at hstep with hempty
      · cases hstep
        exact guarantee_fail hi h rfl hlt hcall
      · cases hstep
        exact Guarantee.stay hi h rfl ⟨⟨hlt, hcall⟩, hempty⟩
    | popCas c head =>
      obtain ⟨⟨hlt, hcall⟩, hpos⟩ := h.extra
      simp only [step] at hstep
      split_ifs at hstep with heq
      · cases hstep
        subst heq
        exact guarantee_reservePop hi h
      · cases hstep
        exact Guarantee.stay hi h rfl ⟨hlt, hcall⟩
    | popLock c i =>
      simp only [step] at hstep
      split_ifs at hstep with hl
      · cases hstep
        exact guarantee_lockPop hi h hl
      · cases hstep
        exact Guarantee.stay hi h rfl trivial
    | popValue c i =>
      cases hstep
      exact guarantee_load hi h
    | popUnlock c i v =>
      cases hstep
      exact guarantee_unlockPop hi h

/-- The local invariant is stable. -/
theorem Loc.stable (h : Loc t s pc) (hr : Rely t s s') : Loc t s' pc := by
  refine ⟨fun d hd hact => ?_, fun d x hd => ?_, ?_⟩
  · rcases hr.place d hd with heq | ⟨-, -, hnot, -⟩
    · rw [heq] at hact ⊢
      exact h.mine d hd hact
    · exact absurd hact hnot
  · obtain ⟨hdt, hplace⟩ := h.here d x hd
    refine ⟨hdt, ?_⟩
    rcases hr.place d hdt with heq | ⟨hnot, hidle, -, -⟩
    · rw [heq]
      exact hplace
    · -- the call of the thread is idle or active
      rw [hplace] at hnot hidle
      cases pc <;> simp only [Pc.place, Option.some.injEq, Prod.mk.injEq, reduceCtorEq] at hd <;>
        obtain ⟨-, rfl⟩ := hd <;> simp [Place.Active] at hnot hidle
  · have hex := h.extra
    cases pc with
    | pushHead c v => exact ⟨hr.calls ▸ hex.1, hr.events hex.2⟩
    | pushCas c v head =>
      exact ⟨⟨hr.calls ▸ hex.1.1, hr.events hex.1.2⟩, hr.bound ▸ hex.2⟩
    | pushUnlock c v i =>
      obtain ⟨hct, hc⟩ := h.here c _ rfl
      obtain ⟨h1, h2⟩ := hr.filling c i v hct hc
      exact ⟨h1.trans hex.1, h2.trans hex.2⟩
    | popHead c => exact ⟨hr.calls ▸ hex.1, hr.events hex.2⟩
    | popCas c head => exact ⟨⟨hr.calls ▸ hex.1.1, hr.events hex.1.2⟩, hex.2⟩
    | popUnlock c i v =>
      obtain ⟨p, hp, hv⟩ := hex
      exact ⟨p, hr.reads hp, hr.pushed p v hv⟩
    | _ => trivial

end Steps

theorem relyGuarantee (size : ℕ) :
    RelyGuarantee step (fun _ _ _ _ => True) (Inv size) Loc Rely where
  guarantee := fun _ _ _ _ _ _ hi h _ hstep =>
    have hg := step_guarantee hi h hstep
    ⟨⟨hg.slots, hg.ledger⟩, hg.loc, hg.rely⟩
  stable := fun _ _ _ _ _ hr h => h.stable hr

theorem init_holds {size : ℕ} (hsize : 1 ≤ size) (junk : ℕ → ℕ) :
    (init size junk).Holds (Inv size) Loc := by
  refine ⟨⟨⟨rfl, hsize, fun _ => rfl, fun i => ?_, fun i c x => ?_, fun _ => List.nodup_nil,
    fun _ => List.nodup_nil, fun c i hc => ?_, fun i p v hp => ?_⟩,
    ⟨fun c => ?_, fun c hc => absurd rfl hc, List.nodup_nil, List.nodup_nil, fun p => ?_, fun q => ?_,
      Tracks.nil, fun q v hq => absurd hq List.not_mem_nil⟩⟩,
    fun t => ⟨fun c _ hact => absurd hact id, fun c x hc => ?_, trivial⟩⟩
  · change 0 = 0 + if i < 0 then 1 else 0
    rw [if_neg (Nat.not_lt_zero i)]
  · refine iff_of_false List.not_mem_nil ?_
    rintro ⟨rfl, hx⟩
    exact absurd hx (by simp [init, alloc, Place.slot])
  · exact absurd hc (by simp [init, alloc, Place.slot])
  · exact absurd hp (by simp [init, alloc])
  · exact iff_of_false List.not_mem_nil (not_not.mpr rfl)
  · refine iff_of_false List.not_mem_nil ?_
    rintro ⟨v, hv⟩
    exact absurd hv (by simp [init, alloc])
  · refine iff_of_false List.not_mem_nil ?_
    rintro (⟨i, hi⟩ | hi) <;> exact absurd hi (by simp [init, alloc])
  · exact absurd hc (by simp [init, Pc.place])

/-! ## Conservation -/

/-- What the slots hold when no call is in progress. -/
structure AtRest (s : Lifo) : Prop where
  full : ∀ i, i < s.head → s.lock i = .full
  empty : ∀ i, s.head ≤ i → s.lock i = .empty
  /-- The slots below `head` hold values that were not read. -/
  unread : ∀ i, i < s.head → s.Pushed (s.source i) (s.value i) ∧ s.source i ∉ s.reads.map (·.2)
  /-- A value that was not read is in exactly one of them. -/
  held : ∀ p v, s.Pushed p v → p ∉ s.reads.map (·.2) →
    ∃! i, i < s.head ∧ s.source i = p ∧ s.value i = v

/-- Conservation: see the fields. -/
structure Conserves (size : ℕ) (c : Conf Lifo Pc) : Prop where
  head_lt : c.shared.head < size
  slot_lt : ∀ t i, (c.thread t).slot = some i → i < size
  /-- The value of a push is read by at most one pop. -/
  read_once : (c.shared.reads.map (·.2)).Nodup
  /-- A pop reads at most once. -/
  pop_once : (c.shared.reads.map (·.1)).Nodup
  /-- Only pops that reserved a slot read, and only what pushes that reserved a slot stored. -/
  reads_pushed : ∀ q p, (q, p) ∈ c.shared.reads → c.shared.Popped q ∧ ∃ v, c.shared.Pushed p v
  /-- A pop that reserved a slot returns the value of the push that it read. -/
  returned : ∀ q v, .ret q (.pop v) ∈ c.shared.events → c.shared.Popped q →
    ∃! p, (q, p) ∈ c.shared.reads ∧ c.shared.Pushed p v
  at_rest : (∀ t, c.thread t = .returned) → AtRest c.shared
  /-- Whoever waits for a slot, some call at that slot can go on. -/
  no_jam : ∀ t i, (c.thread t).Waits → (c.thread t).slot = some i →
    ∃ u s' pc', (c.thread u).slot = some i ∧ step u c.shared (c.thread u) .resume = some (s', pc')
      ∧ pc' ≠ c.thread u

section Conserves

variable {size i : ℕ} {c : Conf Lifo Pc}

/-- The thread of a call that is in progress. -/
theorem thread_of_active (hloc : ∀ t, Loc t c.shared (c.thread t)) {d : Id}
    (hact : (c.shared.place d).Active) : (c.thread d.1).place = some (d, c.shared.place d) :=
  (hloc d.1).mine d rfl hact

/-- A push that waits for an empty slot can go on. -/
theorem goes_on_of_push (hloc : ∀ t, Loc t c.shared (c.thread t))
    {d : Id} {v : ℕ} (hd : c.shared.place d = .pushWaits i v) (hl : c.shared.lock i = .empty) :
    ∃ u s' pc', (c.thread u).slot = some i ∧ step u c.shared (c.thread u) .resume = some (s', pc')
      ∧ pc' ≠ c.thread u := by
  have hpl := thread_of_active hloc (d := d) (by rw [hd]; trivial)
  rw [hd] at hpl
  have hpc : c.thread d.1 = .pushLock d v i := by
    cases hth : c.thread d.1 <;> rw [hth] at hpl <;> simp [Pc.place] at hpl ⊢
    tauto
  refine ⟨d.1, c.shared.lockPush d v i, .pushStore d v i, ?_, ?_, ?_⟩
  · rw [hpc]
    rfl
  · rw [hpc]
    exact if_pos hl
  · rw [hpc]
    simp

/-- A pop that waits for a full slot can go on. -/
theorem goes_on_of_pop (hloc : ∀ t, Loc t c.shared (c.thread t)) {d : Id}
    (hd : c.shared.place d = .popWaits i) (hl : c.shared.lock i = .full) :
    ∃ u s' pc', (c.thread u).slot = some i ∧ step u c.shared (c.thread u) .resume = some (s', pc')
      ∧ pc' ≠ c.thread u := by
  have hpl := thread_of_active hloc (d := d) (by rw [hd]; trivial)
  rw [hd] at hpl
  have hpc : c.thread d.1 = .popLock d i := by
    cases hth : c.thread d.1 <;> rw [hth] at hpl <;> simp [Pc.place] at hpl ⊢
    tauto
  refine ⟨d.1, c.shared.lockPop d i, .popValue d i, ?_, ?_, ?_⟩
  · rw [hpc]
    rfl
  · rw [hpc]
    exact if_pos hl
  · rw [hpc]
    simp

/-- The holder of a lock can go on. -/
theorem goes_on_of_holder (hloc : ∀ t, Loc t c.shared (c.thread t)) {d : Id}
    (hd : (∃ v, c.shared.place d = .filling i v) ∨ c.shared.place d = .draining i
      ∨ c.shared.place d = .drained i) :
    ∃ u s' pc', (c.thread u).slot = some i ∧ step u c.shared (c.thread u) .resume = some (s', pc')
      ∧ pc' ≠ c.thread u := by
  have hact : (c.shared.place d).Active := by
    rcases hd with ⟨v, hd⟩ | hd | hd <;> rw [hd] <;> trivial
  have hpl := thread_of_active hloc hact
  have hslot : (c.thread d.1).slot = some i := by
    unfold Pc.slot
    rw [hpl]
    rcases hd with ⟨v, hd⟩ | hd | hd <;> rw [hd] <;> rfl
  refine ⟨d.1, ?_⟩
  cases hth : c.thread d.1 with
  | pushStore a v j => exact ⟨_, _, hth ▸ hslot, rfl, by simp⟩
  | pushUnlock a v j => exact ⟨_, _, hth ▸ hslot, rfl, by simp⟩
  | popValue a j => exact ⟨_, _, hth ▸ hslot, rfl, by simp⟩
  | popUnlock a j v => exact ⟨_, _, hth ▸ hslot, rfl, by simp⟩
  | _ =>
    rw [hth] at hpl
    rcases hd with ⟨v, hd⟩ | hd | hd <;> rw [hd] at hpl <;> simp [Pc.place] at hpl

/-- The calls at a slot make up for each other. -/
theorem goes_on (hi : Inv size c.shared) (hloc : ∀ t, Loc t c.shared (c.thread t)) {t : ℕ}
    (hw : (c.thread t).Waits) (hs : (c.thread t).slot = some i) :
    ∃ u s' pc', (c.thread u).slot = some i ∧ step u c.shared (c.thread u) .resume = some (s', pc')
      ∧ pc' ≠ c.thread u := by
  have hlock := hi.1.lock i
  have hbal := hi.1.balance i
  cases hph : c.shared.phase i with
  | filling p v => exact goes_on_of_holder hloc (Or.inl ⟨v, hi.1.filling_iff.mp hph⟩)
  | draining q p v =>
    exact goes_on_of_holder hloc (Or.inr (Or.inl (hi.1.draining_iff.mp ⟨p, v, hph⟩)))
  | drained q => exact goes_on_of_holder hloc (Or.inr (Or.inr (hi.1.drained_iff.mp hph)))
  | empty =>
    rw [hph] at hlock hbal
    -- some push waits
    have hpush : c.shared.waitPush i ≠ [] := by
      intro hnil
      rw [hnil] at hbal
      have hpop : c.shared.waitPop i = [] := by
        apply List.eq_nil_of_length_eq_zero
        simp only [List.length_nil, Phase.held] at hbal
        omega
      cases hth : c.thread t with
      | pushLock d v j =>
        rw [hth] at hs
        cases hs
        have hd := hi.1.waitPush_mem.mpr ((hloc t).here d _ (by rw [hth]; rfl)).2
        rw [hnil] at hd
        exact absurd hd List.not_mem_nil
      | popLock d j =>
        rw [hth] at hs
        cases hs
        obtain ⟨w, hd⟩ := hi.1.waitPop_mem.mpr ((hloc t).here d _ (by rw [hth]; rfl)).2
        rw [hpop] at hd
        exact absurd hd List.not_mem_nil
      | _ =>
        rw [hth] at hw
        exact absurd hw id
    obtain ⟨⟨d, v⟩, hd⟩ := List.exists_mem_of_ne_nil _ hpush
    exact goes_on_of_push hloc (hi.1.waitPush_mem.mp hd) hlock
  | full p v =>
    rw [hph] at hlock hbal
    -- some pop waits
    have hpop : c.shared.waitPop i ≠ [] := by
      intro hnil
      rw [hnil] at hbal
      have hpush : c.shared.waitPush i = [] := by
        apply List.eq_nil_of_length_eq_zero
        simp only [List.length_nil, Phase.held, List.length_singleton] at hbal
        split_ifs at hbal <;> omega
      cases hth : c.thread t with
      | pushLock d w j =>
        rw [hth] at hs
        cases hs
        have hd := hi.1.waitPush_mem.mpr ((hloc t).here d _ (by rw [hth]; rfl)).2
        rw [hpush] at hd
        exact absurd hd List.not_mem_nil
      | popLock d j =>
        rw [hth] at hs
        cases hs
        obtain ⟨w, hd⟩ := hi.1.waitPop_mem.mpr ((hloc t).here d _ (by rw [hth]; rfl)).2
        rw [hnil] at hd
        exact absurd hd List.not_mem_nil
      | _ =>
        rw [hth] at hw
        exact absurd hw id
    obtain ⟨⟨d, w⟩, hd⟩ := List.exists_mem_of_ne_nil _ hpop
    exact goes_on_of_pop hloc (hi.1.waitPop_mem.mp ⟨w, hd⟩) hlock

/-- No call is in progress. -/
theorem not_active (hloc : ∀ t, Loc t c.shared (c.thread t)) (hret : ∀ t, c.thread t = .returned)
    (d : Id) : ¬ (c.shared.place d).Active := by
  intro hact
  have hpl := thread_of_active hloc hact
  rw [hret] at hpl
  exact absurd hpl (by simp [Pc.place])

theorem phase_at_rest (hi : Inv size c.shared) (hloc : ∀ t, Loc t c.shared (c.thread t))
    (hret : ∀ t, c.thread t = .returned) (i : ℕ) :
    (i < c.shared.head ∧ ∃ p v, c.shared.phase i = .full p v)
      ∨ (c.shared.head ≤ i ∧ c.shared.phase i = .empty) := by
  have hno := not_active hloc hret
  have hbal := hi.1.balance i
  have hpush : c.shared.waitPush i = [] := by
    by_contra hne
    obtain ⟨⟨d, v⟩, hd⟩ := List.exists_mem_of_ne_nil _ hne
    refine hno d ?_
    rw [hi.1.waitPush_mem.mp hd]
    trivial
  have hpop : c.shared.waitPop i = [] := by
    by_contra hne
    obtain ⟨⟨d, v⟩, hd⟩ := List.exists_mem_of_ne_nil _ hne
    refine hno d ?_
    rw [hi.1.waitPop_mem.mp ⟨v, hd⟩]
    trivial
  rw [hpush, hpop] at hbal
  cases hph : c.shared.phase i with
  | empty =>
    rw [hph] at hbal
    refine Or.inr ⟨?_, rfl⟩
    by_contra hlt
    rw [if_pos (by omega)] at hbal
    simp [Phase.held] at hbal
  | full p v =>
    rw [hph] at hbal
    refine Or.inl ⟨?_, p, v, rfl⟩
    by_contra hlt
    rw [if_neg hlt] at hbal
    simp [Phase.held] at hbal
  | filling p v =>
    refine absurd ?_ (hno p)
    rw [hi.1.filling_iff.mp hph]
    trivial
  | draining q p v =>
    refine absurd ?_ (hno q)
    rw [hi.1.draining_iff.mp ⟨p, v, hph⟩]
    trivial
  | drained q =>
    refine absurd ?_ (hno q)
    rw [hi.1.drained_iff.mp hph]
    trivial

theorem at_rest (hi : Inv size c.shared) (hloc : ∀ t, Loc t c.shared (c.thread t))
    (hret : ∀ t, c.thread t = .returned) : AtRest c.shared := by
  have hphase := phase_at_rest hi hloc hret
  have hfull : ∀ i, i < c.shared.head → c.shared.phase i = .full (c.shared.source i) (c.shared.value i)
      ∧ c.shared.place (c.shared.source i) = .full i (c.shared.value i) := by
    intro i hlt
    rcases hphase i with ⟨-, p, v, hph⟩ | ⟨hle, -⟩
    · have hp := hi.1.full_iff.mp hph
      obtain ⟨hv, hs⟩ := hi.1.stored i p v (Or.inl hp)
      rw [hv, hs]
      exact ⟨hph, hp⟩
    · omega
  refine ⟨fun i hlt => ?_, fun i hle => ?_, fun i hlt => ⟨?_, ?_⟩, fun p v hp hunread => ?_⟩
  · rw [hi.1.lock, (hfull i hlt).1]
    rfl
  · rcases hphase i with ⟨hlt, -⟩ | ⟨-, hph⟩
    · omega
    · rw [hi.1.lock, hph]
      rfl
  · unfold Lifo.Pushed
    rw [(hfull i hlt).2]
    rfl
  · rw [hi.2.read]
    rintro ⟨v, hv⟩
    rw [(hfull i hlt).2] at hv
    exact absurd hv (by simp)
  · have hno := not_active hloc hret
    unfold Lifo.Pushed at hp
    -- the value is where its push stands
    obtain ⟨i, hpl⟩ : ∃ i, c.shared.place p = .full i v := by
      cases hpl : c.shared.place p with
      | full i w =>
        rw [hpl] at hp
        cases hp
        exact ⟨i, rfl⟩
      | taken i w =>
        obtain ⟨q, hq⟩ := hi.1.taken_iff.mpr hpl
        refine absurd ?_ (hno q)
        rw [hi.1.draining_iff.mp ⟨p, w, hq⟩]
        trivial
      | read w => exact absurd ((hi.2.read p).mpr ⟨w, hpl⟩) hunread
      | pushWaits i w => exact absurd (by rw [hpl]; trivial) (hno p)
      | filling i w => exact absurd (by rw [hpl]; trivial) (hno p)
      | _ =>
        rw [hpl] at hp
        exact absurd hp (by simp [Place.pushed])
    have hph := hi.1.full_iff.mpr hpl
    obtain ⟨hv, hs⟩ := hi.1.stored i p v (Or.inl hpl)
    have hlt : i < c.shared.head := by
      rcases hphase i with ⟨hlt, -⟩ | ⟨-, hempty⟩
      · exact hlt
      · rw [hph] at hempty
        exact absurd hempty (by simp)
    refine ⟨i, ⟨hlt, hs, hv⟩, ?_⟩
    rintro j ⟨hj, hsj, -⟩
    have hj' := (hfull j hj).2
    rw [hsj, hpl] at hj'
    exact (Place.full.inj hj').1.symm

/-- **`clifo` conserves values and cannot jam**, for every size from one on, every number
of threads and every interleaving. -/
theorem clifo_conserves (hsize : 1 ≤ size) (junk : ℕ → ℕ) (es : List (ℕ × Cmd))
    (hrun : run sys (init size junk) es = some c) : Conserves size c := by
  obtain ⟨hi, hloc⟩ := (relyGuarantee size).holds_run (init_holds hsize junk)
    (stepsMeet_of_forall (fun _ _ => trivial) _ _) hrun
  refine ⟨hi.1.head_lt, fun t i hs => ?_, hi.2.nodup_snd, hi.2.nodup_fst, fun q p hqp => ⟨?_, ?_⟩,
    fun q v hret hq => ?_, at_rest hi hloc, fun t i hw hs => goes_on hi hloc hw hs⟩
  · obtain ⟨⟨d, x⟩, hpl, hx⟩ := Option.bind_eq_some_iff.mp hs
    rw [← ((hloc t).here d x hpl).2] at hx
    exact hi.1.slot_lt d i hx
  · unfold Lifo.Popped
    rcases (hi.2.drained q).mp (List.mem_map_of_mem hqp) with ⟨i, hpl⟩ | hpl <;> rw [hpl] <;> trivial
  · obtain ⟨v, hpl⟩ := (hi.2.read p).mp (List.mem_map_of_mem hqp)
    refine ⟨v, ?_⟩
    unfold Lifo.Pushed
    rw [hpl]
    rfl
  · obtain ⟨p, hp, hv⟩ := hi.2.returned q v hret hq
    refine ⟨p, ⟨hp, hv⟩, fun p' hp' => ?_⟩
    have heq := List.inj_on_of_nodup_map hi.2.nodup_fst hp'.1 hp rfl
    exact congrArg Prod.snd heq

/-- A push reserves slot 0 and stops; a pop reserves it too and waits; a second push
fills the slot, and the pop takes its value. -/
def overtakenRun : List (ℕ × Cmd) :=
  [(0, .call (.push 5)), (0, .resume), (0, .resume),
   (1, .call .pop), (1, .resume), (1, .resume), (1, .resume),
   (2, .call (.push 6)), (2, .resume), (2, .resume), (2, .resume), (2, .resume), (2, .resume),
   (1, .resume), (1, .resume)]

theorem clifo_conserves_overtaken :
    ∃ c, run sys (init 2 fun _ => 0) overtakenRun = some c
      ∧ c.shared.reads = [((1, 0), (2, 0))] ∧ Conserves 2 c := by
  have hrun : (run sys (init 2 fun _ => 0) overtakenRun).map (·.shared.reads)
      = some [((1, 0), (2, 0))] := by decide +kernel
  obtain ⟨c, hc, hreads⟩ := Option.map_eq_some_iff.mp hrun
  exact ⟨c, hc, hreads, clifo_conserves (by decide) _ _ hc⟩

end Conserves

end Clifo
