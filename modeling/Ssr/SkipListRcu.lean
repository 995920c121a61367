/-
# The skiplist with deferred freeing

`sl_lookup`, `sl_cas` and `sl_remove` together with `rcu_defer_free` and `rcu_update`.  In a
run that is timely a node that `sl_remove` passed to `rcu_defer_free` stays off all levels, so
that a thread that comes to an operation after the grace period does not come to it.
-/
import Ssr.SkipListPointers
import Ssr.RcuClients

open Interleaving Map

namespace SkipList

/-- The skiplist: `sl_remove` passes the node it took out to `rcu_defer_free`. -/
def client : Rcu.Client Heap Pc Cmd where
  step _ := step
  idle
    | .returned _ => true
    | _ => false
  defers
    | .removeDefer item _, .resume => some item
    | _, _ => none

/-- What a step passes to `rcu_defer_free` has been handed over. -/
theorem handed_of_defers {a : ℕ} {h h' : Heap} {pc pc' : Pc} {cmd : Cmd}
    (hstep : step h pc cmd = some (h', pc')) (hd : client.defers pc cmd = some a) :
    a ∈ h'.handed := by
  cases pc with
  | removeDefer item val =>
    cases cmd <;> cases hd
    cases hstep
    exact List.mem_append_right _ (List.mem_singleton_self a)
  | _ => cases cmd <;> cases hd

theorem reclaims_handed :
    (client.withStory Story.after).Reclaims (fun t s pc cmd => Timely t s.1 pc cmd)
      (fun s => Inv s.1 s.2) Pc.Local (fun u s s' => Rely u s.1 s.2 s'.1 s'.2)
      (fun s a => a ∈ s.1.handed) (fun s a pc => pc.Apart s.1 a) where
  base := reclaims
  refl := fun u s => Rely.refl u s.1 s.2
  hands := by
    intro t s pc cmd s' pc' a _ _ _ hstep hd
    exact handed_of_defers (withStory_eq_some.mp hstep).1 hd
  keeps := by
    intro t s pc cmd s' pc' a hi hl hok hstep ha
    obtain ⟨-, -, hrely⟩ := reclaims.guarantee t s pc cmd s' pc' hi hl hok hstep
    exact (hrely (t + 1) t.succ_ne_self).grows.handed_sub a ha
  idle := by
    intro s a pc hidle
    cases pc with
    | returned val => trivial
    | _ => cases hidle
  step := by
    intro t s pc cmd s' pc' a hi hl hok hstep ha hap
    obtain ⟨-, -, hrely⟩ := reclaims.guarantee t s pc cmd s' pc' hi hl hok hstep
    obtain ⟨hrem, hgone⟩ := hi.handed a ha
    exact step_apart hi (hrely (t + 1) t.succ_ne_self).grows hrem hgone hl.2 hap
      (withStory_eq_some.mp hstep).1
  stable := by
    intro u s s' pc a hi hl hr ha hap
    exact hap.stable hi hr.grows (hi.handed a ha).1 hl.2

/-- **No use after free.**  For any number `N` of initialised threads and any interleaving of
the skiplist operations, `rcu_defer_free` and `rcu_update` that is timely: a node that was
freed is on no level, and no thread is about to read or write a field of it. -/
theorem skiplist_freed_untouched (N : ℕ) (junk : ℕ → ℕ → ℕ) (es : List (ℕ × Rcu.Input Cmd))
    (c : Conf (Heap × Rcu.Ring) (Pc × Rcu.Pc))
    (hok : StepsMeet (client.sys N) (onThread (Rcu.Input.Meets Timely))
      (Rcu.Client.start init junk) es)
    (hrun : run (client.sys N) (Rcu.Client.start init junk) es = some c) :
    ∀ a, Rcu.Freed c.shared.2.log a →
      (∀ level, ¬ c.shared.1.Reaches level a) ∧ ∀ u, ¬ (c.thread u).1.Touches a := by
  intro a ha
  obtain ⟨g, hi, hgone⟩ := reclaims_handed.apart_of_freed_story init_holds (fun _ => rfl) hok hrun
  obtain ⟨hhanded, hap⟩ := hgone a ha
  exact ⟨(hi.handed a hhanded).2, fun u => (hap u).touches⟩

/-- The draws for ten keys, and how many steps the insertion and the removal take. -/
def tenTowers : List (ℕ × ℕ × ℕ) :=
  [(31, 15, 34), (0, 11, 24), (3, 13, 28), (7, 17, 42), (0, 12, 26), (1, 12, 26), (3, 14, 30),
   (0, 12, 26), (31, 19, 50), (0, 13, 28)]

/-- Thread 0 inserts a key with the draw `z`, in `n` steps. -/
def insertion (key z n : ℕ) : List (ℕ × Rcu.Input Cmd) :=
  (0, .work (.call (.cas ⟨key, expectWhatever, 7⟩))) :: (0, .work (.rand z))
    :: List.replicate n (0, .work .resume)

/-- Thread 0 inserts the keys 20 and 15, with two levels each, inserts and removes ten keys with up
to five levels, thread 1 passes the position back, and thread 0 frees their nodes; then thread 1
looks a key up. -/
def insertRemoveTenRun : List (ℕ × Rcu.Input Cmd) :=
  insertion 20 31 9 ++ insertion 15 3 12
    ++ tenTowers.zipIdx.flatMap (fun r =>
      insertion (r.2 + 1) r.1.1 r.1.2.1
        ++ (0, Rcu.Input.work (Cmd.call (.remove (r.2 + 1))))
          :: List.replicate r.1.2.2 (0, Rcu.Input.work Cmd.resume)
        ++ List.replicate (if r.2 < 9 then 7 else 11) (0, Rcu.Input.resume))
    ++ (1, Rcu.Input.update) :: List.replicate 7 (1, Rcu.Input.resume)
    ++ (0, Rcu.Input.update) :: List.replicate 7 (0, Rcu.Input.resume)
    ++ [(1, Rcu.Input.work (Cmd.call (.lookup 15)))]

/-- A node of three levels that was freed. -/
theorem skiplist_freed_untouched_insert_remove :
    ∃ c, run (client.sys 2) (Rcu.Client.start init fun _ _ => 0) insertRemoveTenRun = some c
      ∧ Rcu.Freed c.shared.2.log 3 ∧ (c.shared.1.node 3).numLevels = 3
      ∧ (∀ level, ¬ c.shared.1.Reaches level 3)
      ∧ ¬ (c.thread 0).1.Touches 3 ∧ ¬ (c.thread 1).1.Touches 3 := by
  obtain ⟨c, hc, hs⟩ := Option.map_eq_some_iff.mp (show
    (run (client.sys 2) (Rcu.Client.start init fun _ _ => 0) insertRemoveTenRun).map
      (fun c => (decide (.free 0 3 ∈ c.shared.2.log), (c.shared.1.node 3).numLevels))
        = some (true, 3) by decide +kernel)
  obtain ⟨hfree, hlevels⟩ := Prod.mk.inj hs
  have hok : StepsMeet (client.sys 2) (onThread (Rcu.Input.Meets Timely))
      (Rcu.Client.start init fun _ _ => 0) insertRemoveTenRun := by decide +kernel
  have ha : Rcu.Freed c.shared.2.log 3 := ⟨0, of_decide_eq_true hfree⟩
  obtain ⟨hgone, hap⟩ := skiplist_freed_untouched 2 _ insertRemoveTenRun c hok hc 3 ha
  exact ⟨c, hc, ha, hlevels, hgone, hap 0, hap 1⟩

end SkipList
