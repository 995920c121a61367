/-
# What hazard pointers protect

* `Inv` — the dynamic table of a thread holds what the thread has registered;
* `hazDeferFree_spec` — a pointer that is freed is not among the hazards of the scan;
* `hazards_protect` — in the runs in which every step fits, nothing protected is freed;
* `last_thread_unprotected` — a run in which one does not.
-/
import Ssr.Hazard

open Interleaving

namespace Hazard

section Tables

variable {s s' : State} {l : HazLocal} {t d f loc p : ℕ}

/-- The locations in the dynamic table. -/
def HazLocal.locations (l : HazLocal) : List ℕ := (List.range l.dynamicCount).map l.dynamic

/-- What holds between the calls. -/
structure Inv (s : State) : Prop where
  tables : ∀ t, (s.hazLocal t).locations.Perm (s.registered t)
  count_le : ∀ t, (s.hazLocal t).dynamicCount ≤ (s.hazLocal t).dynamicSize
  /-- Nothing is stored behind the end of `haz_local_`. -/
  unused : ∀ t, maxNumThreads ≤ t → (∀ i, (s.hazLocal t).staticHaz i = 0) ∧ s.registered t = []

theorem init_inv : Inv init :=
  ⟨fun _ => List.Perm.refl _, fun _ => le_rfl, fun _ _ => ⟨fun _ => rfl, rfl⟩⟩

theorem setLocal_self (l : HazLocal) : (s.setLocal t l).hazLocal t = l := Function.update_self ..

theorem setLocal_of_ne {u : ℕ} (l : HazLocal) (h : u ≠ t) :
    (s.setLocal t l).hazLocal u = s.hazLocal u := Function.update_of_ne h ..

/-! ## Registration -/

theorem locations_register (junk : ℕ → ℕ) (loc : ℕ) (hle : l.dynamicCount ≤ l.dynamicSize)
    (hroom : l.dynamicSize = 0 ∨ l.dynamicCount < l.dynamicSize) :
    (l.register junk loc).locations.Perm (loc :: l.locations)
      ∧ (l.register junk loc).dynamicCount ≤ (l.register junk loc).dynamicSize := by
  -- the table is new, or has room
  obtain ⟨g, hg, hcount, hsize, hsame⟩ : ∃ g, l.grow junk = g ∧ g.dynamicCount = l.dynamicCount
      ∧ g.dynamicCount < g.dynamicSize ∧ ∀ k, k < l.dynamicCount → g.dynamic k = l.dynamic k := by
    refine ⟨l.grow junk, rfl, ?_⟩
    unfold HazLocal.grow
    by_cases hz : l.dynamicSize = 0
    · have hc : l.dynamicCount = 0 := by omega
      rw [if_pos hz]
      simp only [hc]
      rw [if_neg (by decide)]
      refine ⟨rfl, ?_, fun k hk => absurd hk (Nat.not_lt_zero k)⟩
      change 0 < maxNumThreads * staticHazPerThread
      decide
    · rw [if_neg hz, if_neg (by omega)]
      exact ⟨rfl, by omega, fun _ _ => rfl⟩
  unfold HazLocal.register HazLocal.locations
  simp only [hg]
  constructor
  · rw [List.range_succ, List.map_append, hcount]
    have hold : (List.range l.dynamicCount).map (Function.update g.dynamic l.dynamicCount loc)
        = (List.range l.dynamicCount).map l.dynamic := by
      refine List.map_congr_left fun k hk => ?_
      have hlt := List.mem_range.mp hk
      rw [Function.update_of_ne hlt.ne]
      exact hsame k hlt
    rw [hold, List.map_singleton, Function.update_self]
    exact List.perm_append_singleton _ _
  · exact hsize

/-- Entry `i` is replaced by the last one, which is taken off. -/
theorem perm_swap_remove (g : ℕ → ℕ) {i n : ℕ} (hi : i ≤ n) :
    ((List.range (n + 1)).map g).Perm
      (g i :: (List.range n).map (if i ≠ n then Function.update g i (g n) else g)) := by
  rw [List.range_succ, List.map_append, List.map_singleton]
  by_cases hin : i = n
  · rw [if_neg (not_not.mpr hin), hin]
    exact List.perm_append_singleton _ _
  · rw [if_pos hin]
    have hlt : i < n := by omega
    obtain ⟨as, bs, hsplit⟩ := List.append_of_mem (List.mem_range.mpr hlt)
    have hnodup : (as ++ i :: bs).Nodup := hsplit ▸ List.nodup_range
    have has : ∀ k ∈ as, k ≠ i := fun k hk hki =>
      (List.nodup_append.mp hnodup).2.2 k hk i List.mem_cons_self hki
    have hbs : ∀ k ∈ bs, k ≠ i := fun k hk hki =>
      (List.nodup_cons.mp (List.nodup_append.mp hnodup).2.1).1 (hki ▸ hk)
    have hmap : ∀ ks : List ℕ, (∀ k ∈ ks, k ≠ i) → ks.map (Function.update g i (g n)) = ks.map g :=
      fun ks hks => List.map_congr_left fun k hk => Function.update_of_ne (hks k hk) ..
    rw [hsplit, List.map_append, List.map_append, List.map_cons, List.map_cons, hmap as has,
      hmap bs hbs, Function.update_self]
    -- the two differ in where `g i` and `g n` stand
    rw [List.append_assoc, List.cons_append]
    have hlast : (bs.map g ++ [g n]).Perm (g n :: bs.map g) := List.perm_append_singleton _ _
    exact List.perm_middle.trans ((hlast.append_left _).cons _)

theorem locations_unregister {l' : HazLocal} (h : l.unregister loc = some l') :
    l.locations.Perm (loc :: l'.locations) ∧ l'.dynamicCount ≤ l.dynamicCount
      ∧ l'.dynamicSize = l.dynamicSize ∧ l'.staticHaz = l.staticHaz := by
  obtain ⟨i, hfind, rfl⟩ := Option.map_eq_some_iff.mp h
  have hi := List.mem_range.mp (List.mem_of_find?_eq_some hfind)
  have hloc : l.dynamic i = loc := by
    have := List.find?_some hfind
    simpa using this
  obtain ⟨n, hn⟩ : ∃ n, l.dynamicCount = n + 1 := ⟨l.dynamicCount - 1, by omega⟩
  refine ⟨?_, Nat.sub_le _ _, rfl, rfl⟩
  unfold HazLocal.locations
  simp only [hn, Nat.add_sub_cancel]
  rw [← hloc]
  exact perm_swap_remove l.dynamic (by omega)

/-! ## The scan -/

/-- **The scan finds what is protected.** -/
theorem Inv.mem_hazards (h : Inv s) (hp : s.Protected p) : p ∈ s.hazards := by
  obtain ⟨hne, t, -, hheld⟩ := hp
  have ht : t < maxNumThreads := by
    by_contra hge
    obtain ⟨hstatic, hreg⟩ := h.unused t (by omega)
    rcases hheld with ⟨i, -, hi⟩ | ⟨loc, hloc, -, -⟩
    · exact hne (hi.symm.trans (hstatic i))
    · rw [hreg] at hloc
      exact absurd hloc List.not_mem_nil
  refine List.mem_flatMap.mpr ⟨t, List.mem_range.mpr ht, ?_⟩
  unfold HazLocal.hazards
  rcases hheld with ⟨i, hi, hval⟩ | ⟨loc, hloc, hnz, hval⟩
  · refine List.mem_append_left _ (List.mem_filter.mpr ⟨?_, decide_eq_true hne⟩)
    exact List.mem_map.mpr ⟨i, List.mem_range.mpr hi, hval⟩
  · refine List.mem_append_right _ (List.mem_filterMap.mpr ⟨loc, ?_, ?_⟩)
    · exact (h.tables t).mem_iff.mpr hloc
    · rw [if_pos ⟨hnz, by rw [hval]; exact hne⟩, hval]

/-- What `haz_defer_free` leaves alone. -/
structure SameTables (s s' : State) : Prop where
  threads : s'.maxThreadId = s.maxThreadId
  mem : s'.mem = s.mem
  registered : s'.registered = s.registered
  static : ∀ t, (s'.hazLocal t).staticHaz = (s.hazLocal t).staticHaz
  dynamic : ∀ t, (s'.hazLocal t).dynamic = (s.hazLocal t).dynamic
  size : ∀ t, (s'.hazLocal t).dynamicSize = (s.hazLocal t).dynamicSize
  count : ∀ t, (s'.hazLocal t).dynamicCount = (s.hazLocal t).dynamicCount

theorem SameTables.trans {s'' : State} (h : SameTables s s') (h' : SameTables s' s'') :
    SameTables s s'' :=
  ⟨h'.threads.trans h.threads, h'.mem.trans h.mem, h'.registered.trans h.registered,
    fun t => (h'.static t).trans (h.static t), fun t => (h'.dynamic t).trans (h.dynamic t),
    fun t => (h'.size t).trans (h.size t), fun t => (h'.count t).trans (h.count t)⟩

theorem SameTables.hazards_eq (h : SameTables s s') : s'.hazards = s.hazards := by
  unfold State.hazards HazLocal.hazards
  rw [h.mem]
  congr 1
  funext i
  rw [h.static, h.dynamic, h.count]

theorem SameTables.inv (h : SameTables s s') (hi : Inv s) : Inv s' := by
  refine ⟨fun t => ?_, fun t => ?_, fun t ht => ?_⟩
  · unfold HazLocal.locations
    rw [h.dynamic, h.count, h.registered]
    exact hi.tables t
  · rw [h.count, h.size]
    exact hi.count_le t
  · rw [h.static, h.registered]
    exact hi.unused t ht

/-- Only the pending table of one thread changes. -/
theorem SameTables.of_setLocal (hl : s'.hazLocal = Function.update s.hazLocal t l)
    (ht : s'.maxThreadId = s.maxThreadId) (hm : s'.mem = s.mem) (hr : s'.registered = s.registered)
    (hs : l.staticHaz = (s.hazLocal t).staticHaz) (hd : l.dynamic = (s.hazLocal t).dynamic)
    (hz : l.dynamicSize = (s.hazLocal t).dynamicSize)
    (hc : l.dynamicCount = (s.hazLocal t).dynamicCount) : SameTables s s' := by
  have hcases : ∀ u, s'.hazLocal u = s.hazLocal u ∨ u = t ∧ s'.hazLocal u = l := by
    intro u
    rw [hl]
    by_cases hu : u = t
    · rw [hu]
      exact Or.inr ⟨rfl, Function.update_self ..⟩
    · exact Or.inl (Function.update_of_ne hu ..)
  refine ⟨ht, hm, hr, fun u => ?_, fun u => ?_, fun u => ?_, fun u => ?_⟩
  · rcases hcases u with h | ⟨rfl, h⟩ <;> rw [h]
    exact hs
  · rcases hcases u with h | ⟨rfl, h⟩ <;> rw [h]
    exact hd
  · rcases hcases u with h | ⟨rfl, h⟩ <;> rw [h]
    exact hz
  · rcases hcases u with h | ⟨rfl, h⟩ <;> rw [h]
    exact hc

/-- **`haz_defer_free`** frees only pointers that its scans did not find. -/
theorem hazDeferFree_spec {junk : ℕ → ℕ → Pending} {fuel : ℕ}
    (h : hazDeferFree junk t d f fuel s = some s') :
    SameTables s s' ∧ ∃ new, s'.freed = s.freed ++ new ∧ ∀ p ∈ new, p ∉ s.hazards := by
  induction fuel generalizing s with
  | zero => cases h
  | succ fuel ih =>
    simp only [hazDeferFree] at h
    split_ifs at h with hroom hzero hmany
    · cases h
      refine ⟨SameTables.of_setLocal rfl rfl rfl rfl rfl rfl rfl rfl, [], ?_, fun p hp => ?_⟩
      · exact (List.append_nil _).symm
      · exact absurd hp List.not_mem_nil
    · cases h
      refine ⟨SameTables.of_setLocal rfl rfl rfl rfl rfl rfl rfl rfl, [], ?_, fun p hp => ?_⟩
      · exact (List.append_nil _).symm
      · exact absurd hp List.not_mem_nil
    · -- the pending table has grown
      have hsame : SameTables s (s.setLocal t (resizePending (s.hazLocal t) (junk fuel))) :=
        SameTables.of_setLocal rfl rfl rfl rfl rfl rfl rfl rfl
      obtain ⟨hrest, new, hnew, hfree⟩ := ih h
      rw [hsame.hazards_eq] at hfree
      exact ⟨hsame.trans hrest, new, hnew, hfree⟩
    · -- one pass over the pending table
      have hsame : SameTables s (s.sweep t) := SameTables.of_setLocal rfl rfl rfl rfl rfl rfl rfl rfl
      obtain ⟨hrest, new, hnew, hfree⟩ := ih h
      rw [hsame.hazards_eq] at hfree
      refine ⟨hsame.trans hrest,
        ((s.hazLocal t).entries.filter (·.ptr ∉ s.hazards)).map (·.ptr) ++ new, ?_, fun p hp => ?_⟩
      · rw [hnew, ← List.append_assoc]
        rfl
      · rcases List.mem_append.mp hp with hp | hp
        · obtain ⟨e, he, rfl⟩ := List.mem_map.mp hp
          exact of_decide_eq_true (List.mem_filter.mp he).2
        · exact hfree p hp

end Tables

/-! ## Whole runs -/

section Runs

variable {s s' : State} {e : ℕ × Act}

/-- A step that fits keeps the invariant and protects. -/
theorem step_protects (hi : Inv s) (hok : Fits s e) (hstep : step s e = some s') :
    Inv s' ∧ Protects s s' e := by
  obtain ⟨t, act⟩ := e
  have hkeep : s'.freed = s.freed → ∀ new, s'.freed = s.freed ++ new → ∀ p ∈ new, ¬ s.Protected p := by
    intro heq new hnew p hp
    rw [heq] at hnew
    have hnil : new = [] := by simpa using hnew
    rw [hnil] at hp
    exact absurd hp List.not_mem_nil
  cases act with
  | threadInit =>
    simp only [step] at hstep
    split_ifs at hstep
    cases hstep
    exact ⟨⟨hi.tables, hi.count_le, hi.unused⟩, hkeep rfl, trivial⟩
  | deferFree d f fuel junk =>
    simp only [step] at hstep
    split_ifs at hstep
    obtain ⟨hsame, new, hnew, hfree⟩ := hazDeferFree_spec hstep
    refine ⟨hsame.inv hi, fun new' hnew' p hp hprot => ?_, hok⟩
    have heq : new' = new := List.append_cancel_left (hnew'.symm.trans hnew)
    exact hfree p (heq ▸ hp) (hi.mem_hazards hprot)
  | setStatic i p =>
    simp only [step] at hstep
    split_ifs at hstep with hthread
    have hbounds : InBounds (t, .setStatic i p) := by
      refine ⟨hok.1, fun j hj => ?_⟩
      unfold hazGetStatic at hj
      split_ifs at hj
      cases hj
      exact hok.2
    cases hg : hazGetStatic i with
    | none =>
      rw [hg] at hstep
      cases hstep
      exact ⟨hi, hkeep rfl, hbounds⟩
    | some j =>
      rw [hg] at hstep
      cases hstep
      have hsl : ∀ u, ((s.setLocal t ((s.hazLocal t).setStatic j p)).hazLocal u).locations
            = (s.hazLocal u).locations
          ∧ ((s.setLocal t ((s.hazLocal t).setStatic j p)).hazLocal u).dynamicCount
            = (s.hazLocal u).dynamicCount
          ∧ ((s.setLocal t ((s.hazLocal t).setStatic j p)).hazLocal u).dynamicSize
            = (s.hazLocal u).dynamicSize := by
        intro u
        by_cases hu : u = t
        · rw [hu, setLocal_self]
          cases j <;> exact ⟨rfl, rfl, rfl⟩
        · rw [setLocal_of_ne _ hu]
          exact ⟨rfl, rfl, rfl⟩
      refine ⟨⟨fun u => ?_, fun u => ?_, fun u hu => ?_⟩, hkeep rfl, hbounds⟩
      · rw [(hsl u).1]
        exact hi.tables u
      · rw [(hsl u).2.1, (hsl u).2.2]
        exact hi.count_le u
      · have hut : u ≠ t := by
          rintro rfl
          have := hok.1
          simp only at this
          omega
        rw [setLocal_of_ne _ hut]
        exact hi.unused u hu
  | setLocation loc p =>
    simp only [step] at hstep
    split_ifs at hstep
    cases hstep
    exact ⟨⟨hi.tables, hi.count_le, hi.unused⟩, hkeep rfl, hok⟩
  | register loc junk =>
    simp only [step] at hstep
    split_ifs at hstep
    cases hstep
    obtain ⟨hperm, hle⟩ := locations_register junk loc (hi.count_le t) hok.2
    refine ⟨⟨fun u => ?_, fun u => ?_, fun u hu => ?_⟩, hkeep rfl, hok.1⟩
    · change ((s.setLocal t _).hazLocal u).locations.Perm (Function.update s.registered t _ u)
      by_cases hut : u = t
      · rw [hut, setLocal_self, Function.update_self]
        exact hperm.trans ((hi.tables t).cons loc)
      · rw [setLocal_of_ne _ hut, Function.update_of_ne hut]
        exact hi.tables u
    · change ((s.setLocal t _).hazLocal u).dynamicCount ≤ ((s.setLocal t _).hazLocal u).dynamicSize
      by_cases hut : u = t
      · rw [hut, setLocal_self]
        exact hle
      · rw [setLocal_of_ne _ hut]
        exact hi.count_le u
    · have hut : u ≠ t := by
        rintro rfl
        have := hok.1
        simp only at this
        omega
      change (∀ i, ((s.setLocal t _).hazLocal u).staticHaz i = 0)
        ∧ Function.update s.registered t _ u = []
      rw [setLocal_of_ne _ hut, Function.update_of_ne hut]
      exact hi.unused u hu
  | unregister loc =>
    simp only [step] at hstep
    split_ifs at hstep
    obtain ⟨l, hl, rfl⟩ := Option.map_eq_some_iff.mp hstep
    obtain ⟨hperm, hcount, hsize, hstatic⟩ := locations_unregister hl
    refine ⟨⟨fun u => ?_, fun u => ?_, fun u hu => ?_⟩, hkeep rfl, hok⟩
    · change ((s.setLocal t l).hazLocal u).locations.Perm (Function.update s.registered t _ u)
      by_cases hut : u = t
      · rw [hut, setLocal_self, Function.update_self]
        have h := (hperm.symm.trans (hi.tables t)).erase loc
        rwa [List.erase_cons_head] at h
      · rw [setLocal_of_ne _ hut, Function.update_of_ne hut]
        exact hi.tables u
    · change ((s.setLocal t l).hazLocal u).dynamicCount ≤ ((s.setLocal t l).hazLocal u).dynamicSize
      by_cases hut : u = t
      · rw [hut, setLocal_self, hsize]
        exact hcount.trans (hi.count_le t)
      · rw [setLocal_of_ne _ hut]
        exact hi.count_le u
    · have hut : u ≠ t := by
        rintro rfl
        have : u < maxNumThreads := hok
        omega
      change (∀ i, ((s.setLocal t l).hazLocal u).staticHaz i = 0)
        ∧ Function.update s.registered t _ u = []
      rw [setLocal_of_ne _ hut, Function.update_of_ne hut]
      exact hi.unused u hu

/-- **Hazard pointers protect** in every run whose steps all fit: no step frees a protected
pointer or leaves the bounds of an array. -/
theorem hazards_protect (es : List (ℕ × Act)) (e : ℕ × Act)
    (hrun : run step init es = some s) (hstep : step s e = some s')
    (hok : StepsMeet step Fits init (es ++ [e])) : Protects s s' e := by
  have hprefix : StepsMeet step Fits init es := by
    clear hrun hstep
    generalize init = s₀ at hok
    induction es generalizing s₀ with
    | nil => trivial
    | cons e' es ih => exact ⟨hok.1, fun s₁ hs₁ => ih s₁ (hok.2 s₁ hs₁)⟩
  have hi : Inv s := run_invariant (fun s e s' hs hk hst => (step_protects hs hk hst).1) init_inv
    hprefix hrun
  exact (step_protects hi (hok.of_append hrun).1 hstep).2

/-- Thread `t` hands over pointers, one after another. -/
def deferring (t : ℕ) (ps : List ℕ) : List (ℕ × Act) :=
  ps.map fun p => (t, .deferFree p 1 3 fun _ _ => ⟨0, 0⟩)

/-- One pointer is held in a static slot and one in a registered location; thread 2 fills its
pending table with these and 62 others. -/
def heldRun : List (ℕ × Act) :=
  [(0, Act.threadInit), (0, Act.threadInit), (1, Act.setStatic 0 100),
    (1, Act.register 7 fun _ => 0), (1, Act.setLocation 7 101)] ++ deferring 2 (List.range' 100 64)

theorem hazards_protect_held :
    ∃ s s', run step init heldRun = some s
      ∧ step s (2, .deferFree 500 1 3 fun _ _ => ⟨0, 0⟩) = some s'
      ∧ s'.freed = List.range' 102 62
      ∧ Protects s s' (2, .deferFree 500 1 3 fun _ _ => ⟨0, 0⟩) := by
  have hrun : (run step init (heldRun ++ deferring 2 [500])).map (·.freed)
      = some (List.range' 102 62) := by decide +kernel
  obtain ⟨s', hs', hfreed⟩ := Option.map_eq_some_iff.mp hrun
  obtain ⟨s, hs, hrest⟩ := run_append_eq_some.mp hs'
  obtain ⟨s₁, hstep, hnil⟩ := run_cons_eq_some.mp hrest
  cases hnil
  have hok : StepsMeet step Fits init (heldRun ++ deferring 2 [500]) := by decide +kernel
  exact ⟨s, s', hs, hstep, hfreed, hazards_protect heldRun _ hs hstep hok⟩

/-- All the threads that are admitted; the last one holds a pointer, which thread 1 hands
over with 63 others. -/
def lastThreadRun : List (ℕ × Act) :=
  List.replicate 32 (0, Act.threadInit) ++ [(32, Act.setStatic 0 100)]
    ++ deferring 1 (List.range' 100 64)

/-- **The last thread is not scanned**: the pointer that it holds is freed. -/
theorem last_thread_unprotected :
    ∃ s s' e, run step init lastThreadRun = some s ∧ step s e = some s' ∧ ¬ Protects s s' e := by
  have hfreed : (run step init (lastThreadRun ++ deferring 1 [500])).map (·.freed)
      = some (List.range' 100 64) := by decide +kernel
  have hheld : (run step init lastThreadRun).map
      (fun s => (s.freed, s.maxThreadId, (s.hazLocal 32).staticHaz 0)) = some ([], 32, 100) := by
    decide +kernel
  obtain ⟨s', hs', hfreed⟩ := Option.map_eq_some_iff.mp hfreed
  obtain ⟨s, hs, hrest⟩ := run_append_eq_some.mp hs'
  obtain ⟨s₁, hstep, hnil⟩ := run_cons_eq_some.mp hrest
  cases hnil
  rw [hs, Option.map_some, Option.some.injEq, Prod.mk.injEq, Prod.mk.injEq] at hheld
  obtain ⟨hnone, hthreads, hslot⟩ := hheld
  refine ⟨s, s', _, hs, hstep, fun h => ?_⟩
  refine h.frees s'.freed (by rw [hnone, List.nil_append]) 100 (by rw [hfreed]; decide)
    ⟨by decide, 32, ⟨by decide, hthreads.ge⟩, Or.inl ⟨0, by decide, hslot⟩⟩

end Runs

end Hazard
