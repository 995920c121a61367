/-
# The list with deferred freeing

`ll_lookup`, `ll_cas` and `ll_remove` together with `rcu_defer_free` and `rcu_update`: what a
thread takes out of the list is freed after the grace period, and by then no thread can come
to it any more.

* `Pc.Touches` — the node whose fields the next step reads or writes;
* `Pc.Apart` — the thread holds no pointer that leads to a node; it gets none by its own
  steps (`step_apart`), as that node is not in the list, and by those of the others
  (`Pc.Apart.stable`);
* `list_freed_untouched` — no step reads or writes a node that was freed.
-/
import Ssr.ListStructure
import Ssr.LinkedChain
import Ssr.RcuClients

open Interleaving Map

namespace LinkedList

/-- The next step reads or writes a field of node `a`. -/
def Pc.Touches (a : ℕ) : Pc → Prop
  | .findHead _ => a = 0
  | .findNext _ _ item | .findSkip _ _ item | .findKey _ _ item _ => item = a
  | .findUnlink _ pred _ _ => pred = a
  | .findReload _ _ item _ => item = some a
  | .lookupVal item | .casVal _ _ _ item | .casUpdate _ _ _ item _ => item = a
  | .casLink _ pred _ _ => pred = a
  | .removeNext _ item | .removeMark _ item _ | .removeSwap _ item _ => item = a
  | .removeUnlink pred _ _ _ => pred = a
  | _ => False

/-! ## Away from a node -/

/-- `p` does not lead to `a`. -/
def Avoids (h : Heap) (a p : ℕ) : Prop := ¬ Chain.Reach h.succ p a

/-- The node was in the list, and is not any more. -/
def Gone (h : Heap) (a : ℕ) : Prop := a ∈ h.linked ∧ ¬ h.Reachable a

/-- A thread works away from `a`. -/
def Pc.Apart (h : Heap) (a : ℕ) : Pc → Prop
  | .findNext _ pred item | .findSkip _ pred item | .findUnlink _ pred item _ =>
    Avoids h a pred ∧ Avoids h a item
  | .findKey _ pred item next =>
    Avoids h a pred ∧ Avoids h a item ∧ ∀ b, next.node = some b → Avoids h a b
  | .findReload _ pred item _ => Avoids h a pred ∧ ∀ i, item = some i → Avoids h a i
  | .findDefer _ pred item next _ =>
    Avoids h a pred ∧ ∀ i, item = some i → Avoids h a i ∧ ∀ b, next.node = some b → Avoids h a b
  | .lookupVal item | .casVal _ _ _ item | .casUpdate _ _ _ item _ => item ≠ a
  | .casAlloc _ _ pred _ | .casLink _ pred _ _ => pred ≠ a
  | .removeNext pred item | .removeMark pred item _ | .removeSwap pred item _ =>
    pred ≠ a ∧ item ≠ a
  | .removeUnlink pred _ _ _ => pred ≠ a
  | _ => True

/-- What thread `u` relies on: besides, no node comes to lead to one that is in the list
already. -/
structure Steady (u : ℕ) (h h' : Heap) : Prop where
  rely : Rely u h h'
  clear : ∀ p a, h.Linked p → a ∈ h.linked → Avoids h a p → Avoids h' a p

section Apart

variable {t a p : ℕ} {h h' : Heap} {op : Op} {pc pc' : Pc} {cmd : Cmd}

theorem Avoids.ne (hp : Avoids h a p) : p ≠ a := by
  rintro rfl
  exact hp (Chain.Reach.refl p)

theorem Avoids.succ {b : ℕ} (hp : Avoids h a p) (hb : h.succ p = some b) : Avoids h a b :=
  fun hba => hp (hba.head hb)

theorem Gone.ne_zero (hg : Gone h a) : a ≠ 0 := by
  rintro rfl
  exact hg.2 (Chain.Reach.refl 0)

theorem Pc.Apart.touches (hg : Gone h a) (hap : pc.Apart h a) : ¬ pc.Touches a := by
  cases pc with
  | findHead op => exact hg.ne_zero
  | findNext op pred item | findSkip op pred item => exact hap.2.ne
  | findKey op pred item next => exact hap.2.1.ne
  | findUnlink op pred item next => exact hap.1.ne
  | findReload op pred item old => exact fun hit => (hap.2 a hit).ne rfl
  | removeNext | removeMark | removeSwap => exact hap.2
  | lookupVal | casLink | casVal | casUpdate | removeUnlink => exact hap
  | returned | findDefer | casAlloc | removeDefer => exact id

/-! ## Steps of other threads -/

theorem Pc.Apart.stable {u : ℕ} (hs : Steady u h h') (hl : Local u h pc) (ha : a ∈ h.linked)
    (hap : pc.Apart h a) : pc.Apart h' a := by
  have hmem : ∀ i, i ∈ h.linked → Avoids h a i → Avoids h' a i := fun i hi =>
    hs.clear i a (.inr hi) ha
  cases pc with
  | findNext op pred item | findSkip op pred item | findUnlink op pred item next =>
    obtain ⟨hp, hit⟩ := hap
    first
      | exact ⟨hs.clear pred a hl.1.2.1 ha hp, hmem item hl.2 hit⟩
      | exact ⟨hs.clear pred a hl.1.2.1 ha hp, hmem item hl.2.1 hit⟩
  | findKey op pred item next =>
    obtain ⟨hp, hit, hn⟩ := hap
    obtain ⟨hplace, hlinked, hnext⟩ := hl
    exact ⟨hs.clear pred a hplace.2.1 ha hp, hmem item hlinked hit,
      fun b hb => hmem b (hnext b hb) (hn b hb)⟩
  | findReload op pred item old =>
    obtain ⟨hp, hit⟩ := hap
    obtain ⟨hplace, hlinked, -⟩ := hl
    exact ⟨hs.clear pred a hplace.2.1 ha hp, fun i hi => hmem i (hlinked i hi) (hit i hi)⟩
  | findDefer op pred item next old =>
    obtain ⟨hp, hit⟩ := hap
    obtain ⟨hplace, -, hlinked⟩ := hl
    refine ⟨hs.clear pred a hplace.2.1 ha hp, fun i hi => ?_⟩
    obtain ⟨hil, hnext, -⟩ := hlinked i hi
    exact ⟨hmem i hil (hit i hi).1, fun b hb => hmem b (hnext b hb) ((hit i hi).2 b hb)⟩
  | returned | findHead | lookupVal | casAlloc | casLink | casVal | casUpdate | removeNext
  | removeMark | removeSwap | removeUnlink | removeDefer => exact hap

/-- A step leads to no node that was in the list before it. -/
theorem step_clear (hi : Inv h) (hl : Local t h pc) (hstep : step t h pc cmd = some (h', pc'))
    (hp : h.Linked p) (ha : a ∈ h.linked) (hclear : Avoids h a p) : Avoids h' a p := by
  have hsame : h'.succ = h.succ → Avoids h' a p := by
    intro heq
    rw [Avoids, heq]
    exact hclear
  have hunlink : ∀ q i l, (h.node q).next = ⟨some i, false⟩ → (h.node i).next.node = l →
      h' = h.unlink t q i l → Avoids h' a p := by
    rintro q i l hq rfl rfl hre
    rw [show (h.unlink t q i (h.node i).next.node).succ = Function.update h.succ q (h.succ i) from
      h.setNext_succ q _] at hre
    exact hclear (LinkedChain.reach_before_delete (congrArg Link.node hq) hre)
  have hmark : ∀ i, h' = h.setNext i ⟨(h.node i).next.node, true⟩ → Avoids h' a p := by
    rintro i rfl
    refine hsame ?_
    rw [Heap.setNext_succ]
    exact Function.update_eq_self i h.succ
  cases pc with
  | findUnlink op pred item next =>
    obtain ⟨-, -, -, hn⟩ := hl
    cases cmd <;> simp only [step, reduceCtorEq] at hstep
    split at hstep
    · rename_i hcas
      cases hstep
      exact hunlink pred item _ hcas (by rw [hn]) rfl
    · split at hstep <;> cases hstep <;> exact hclear
  | findReload op pred item old | findDefer op pred item next old =>
    cases item <;> cases cmd <;> cases hstep <;> exact hclear
  | casAlloc op new pred item =>
    cases cmd <;> cases hstep
    have hlt : ∀ x, h.Linked x → x < h.brk := fun x hx =>
      hx.elim (fun h0 => h0 ▸ hi.brk_pos) fun hx => (hi.linked_lt x hx).2
    refine fun hre => hclear (Chain.Reach.congr (S := h.Linked) hp ?_ ?_ hre)
    · intro x y hx hxy
      rw [Heap.succ, h.alloc_node_of_ne (hlt x hx).ne] at hxy
      exact .inr (hi.link_linked x y hxy)
    · intro x hx
      rw [Heap.succ, Heap.succ, h.alloc_node_of_ne (hlt x hx).ne]
  | casLink op pred next n =>
    obtain ⟨hplace, hn0, -, hnl, -, -, hnx⟩ := hl
    cases cmd <;> simp only [step, reduceCtorEq] at hstep
    split at hstep <;> cases hstep
    · rename_i hcas
      intro hre
      rw [show (h.link pred n).succ = Function.update h.succ pred (some n) from
        h.setNext_succ pred _] at hre
      have hne : pred ≠ n := by
        rintro rfl
        exact hplace.2.1.elim hn0 hnl
      have hsucc : h.succ n = h.succ pred := by rw [Heap.succ, Heap.succ, hcas, hnx]
      rcases LinkedChain.reach_of_insert hne hsucc hre with hre | rfl
      · exact hclear hre
      · exact hnl ha
    · exact hclear
  | casUpdate op e new item old =>
    cases cmd <;> simp only [step, reduceCtorEq] at hstep
    repeat' split at hstep
    all_goals
      cases hstep
      first
        | exact hclear
        | exact hsame (h.setVal_succ item new)
  | removeMark pred item next =>
    cases cmd <;> simp only [step, reduceCtorEq] at hstep
    split at hstep
    · rename_i hcas
      subst hcas
      split at hstep <;> (cases hstep; exact hmark item rfl)
    · split at hstep <;> cases hstep <;> exact hclear
  | removeSwap pred item next =>
    cases cmd <;> cases hstep
    exact hsame (h.setVal_succ item _)
  | removeUnlink pred item next val =>
    obtain ⟨-, -, hn⟩ := hl
    cases cmd <;> simp only [step, reduceCtorEq] at hstep
    split at hstep <;> cases hstep
    · rename_i hcas
      exact hunlink pred item _ hcas (by rw [hn]) rfl
    · exact hclear
  | findKey op pred item next =>
    cases cmd <;> simp only [step, reduceCtorEq] at hstep
    repeat' split at hstep
    all_goals
      cases hstep
      exact hclear
  | returned | findHead | findNext | findSkip | lookupVal | casVal | removeNext | removeDefer =>
    cases cmd <;> cases hstep
    exact hclear

theorem steadyGuarantee : RelyGuarantee step SmallCall Inv Local Steady where
  guarantee := by
    intro t h pc cmd h' pc' hi hl hok hstep
    obtain ⟨hinv, hloc, hrely⟩ := step_guarantee hi hl hok hstep
    exact ⟨hinv, hloc, fun u hu => ⟨hrely u hu, fun p a hp ha hclear =>
      step_clear hi hl hstep hp ha hclear⟩⟩
  stable := fun _ _ _ _ hi hr hl => Local.stable hi hr.rely hl

/-! ## The thread's own steps -/

theorem apart_notFound {pred : ℕ} {item : Option ℕ} (hp : pred ≠ a) :
    (notFound op pred item).Apart h a := by
  cases op with
  | lookup key | remove key => trivial
  | cas key expectation new =>
    simp only [notFound]
    split
    · trivial
    · exact hp

theorem apart_found {pred item : ℕ} (hp : pred ≠ a) (hit : item ≠ a) :
    (found op pred item).Apart h a := by
  cases op with
  | lookup key => exact hit
  | cas key expectation new => exact hit
  | remove key => exact ⟨hp, hit⟩

theorem apart_visit {pred : ℕ} {item : Option ℕ} (hp : Avoids h a pred)
    (hit : ∀ i, item = some i → Avoids h a i) : (visit op pred item).Apart h a := by
  cases item with
  | none => exact apart_notFound hp.ne
  | some i => exact ⟨hp, hit i rfl⟩

theorem apart_examine {pred item : ℕ} {next : Link} (hp : Avoids h a pred) (hit : Avoids h a item)
    (hn : ∀ b, next.node = some b → Avoids h a b) : (examine op pred item next).Apart h a := by
  unfold examine
  split
  · split <;> exact ⟨hp, hit⟩
  · exact ⟨hp, hit, hn⟩

/-- A step of the thread itself keeps away from a node that is gone. -/
theorem step_apart (hi : Inv h) (hl : Local t h pc) (hg : Gone h a)
    (hkeep : ∀ p, h.Linked p → Avoids h a p → Avoids h' a p) (hap : pc.Apart h a)
    (hstep : step t h pc cmd = some (h', pc')) : pc'.Apart h' a := by
  cases pc with
  | returned val =>
    cases cmd <;> cases hstep
    trivial
  | findHead op =>
    cases cmd <;> cases hstep
    have h0 : Avoids h a 0 := hg.2
    exact apart_visit h0 fun i hi' => h0.succ hi'
  | findNext op pred item =>
    cases cmd <;> cases hstep
    exact apart_examine hap.1 hap.2 fun b hb => hap.2.succ hb
  | findSkip op pred item =>
    cases cmd <;> cases hstep
    exact apart_visit hap.1 fun b hb => hap.2.succ hb
  | findKey op pred item next =>
    obtain ⟨hp, hit, hn⟩ := hap
    cases cmd <;> simp only [step, reduceCtorEq] at hstep
    repeat' split at hstep
    all_goals cases hstep
    · exact apart_found hp.ne hit.ne
    · exact apart_notFound hp.ne
    · exact apart_visit hit hn
  | findUnlink op pred item next =>
    obtain ⟨hp, hit⟩ := hap
    obtain ⟨hplace, hlinked, -, hn⟩ := hl
    have hsucc : ∀ i, next.node = some i → h.succ item = some i := fun i hi' => by
      rw [Heap.succ, hn]
      exact hi'
    cases cmd <;> simp only [step, reduceCtorEq] at hstep
    split at hstep
    · cases hstep
      refine ⟨hkeep pred hplace.2.1 hp, fun i hi' => ?_⟩
      exact hkeep i (.inr (hi.link_linked item i (hsucc i hi'))) (hit.succ (hsucc i hi'))
    · split at hstep <;> cases hstep
      · trivial
      · exact apart_visit hp fun i hi' => hp.succ hi'
  | findReload op pred item old =>
    obtain ⟨hp, hit⟩ := hap
    cases item with
    | none =>
      cases cmd <;> cases hstep
      exact ⟨hp, fun i hi' => absurd hi' (Option.some_ne_none i).symm⟩
    | some i =>
      cases cmd <;> cases hstep
      refine ⟨hp, fun j hj => ?_⟩
      cases hj
      exact ⟨hit i rfl, fun b hb => (hit i rfl).succ hb⟩
  | findDefer op pred item next old =>
    obtain ⟨hp, hit⟩ := hap
    cases item with
    | none =>
      cases cmd <;> cases hstep
      exact apart_notFound hp.ne
    | some i =>
      cases cmd <;> cases hstep
      exact apart_examine (h := h.hand t old) hp (hit i rfl).1 (hit i rfl).2
  | casAlloc op new pred item =>
    cases cmd <;> cases hstep
    exact hap
  | casUpdate op e new item old =>
    cases cmd <;> simp only [step, reduceCtorEq] at hstep
    repeat' split at hstep
    all_goals
      cases hstep
      trivial
  | casLink op pred next newItem =>
    cases cmd <;> simp only [step, reduceCtorEq] at hstep
    split at hstep <;> cases hstep <;> trivial
  | removeMark pred item next =>
    cases cmd <;> simp only [step, reduceCtorEq] at hstep
    repeat' split at hstep
    all_goals
      cases hstep
      trivial
  | removeUnlink pred item next val =>
    cases cmd <;> simp only [step, reduceCtorEq] at hstep
    split at hstep <;> cases hstep <;> trivial
  | casVal | removeNext =>
    cases cmd <;> cases hstep
    exact hap
  | removeSwap pred item next =>
    cases cmd <;> cases hstep
    exact hap.1
  | lookupVal | removeDefer =>
    cases cmd <;> cases hstep
    trivial

end Apart

/-! ## The list as a client of the scheme -/

/-- The list: `find_pred` and `ll_remove` pass the nodes they took out to `rcu_defer_free`. -/
def client : Rcu.Client Heap Pc Cmd where
  step := step
  idle
    | .returned _ => true
    | _ => false
  defers
    | .findDefer _ _ _ _ old, .resume => some old
    | .removeDefer item _, .resume => some item
    | _, _ => none

theorem Pending.gone {t a : ℕ} {h : Heap} (hi : Inv h) (ha : Pending t h a) : Gone h a :=
  hi.unlinked_gone a t ha.1

/-- What a step passes to `rcu_defer_free` is not in the list any more. -/
theorem gone_of_defers {t a : ℕ} {h h' : Heap} {pc pc' : Pc} {cmd : Cmd} (hi : Inv h)
    (hl : Local t h pc) (hstep : step t h pc cmd = some (h', pc'))
    (hd : client.defers pc cmd = some a) : Gone h' a := by
  cases pc with
  | findDefer op pred item next old =>
    cases cmd <;> cases hd
    have hgone : Gone h a := hl.2.1.gone hi
    cases item <;> cases hstep
    all_goals exact hgone
  | removeDefer item val =>
    cases cmd <;> cases hd
    cases hstep
    have hgone : Gone h a := Pending.gone hi hl
    exact hgone
  | _ => cases cmd <;> cases hd

theorem reclaims : client.Reclaims SmallCall Inv Local Steady Gone (fun h a pc => pc.Apart h a) where
  base := steadyGuarantee
  refl := fun u h => ⟨Rely.refl u h, fun _ _ _ _ hc => hc⟩
  hands := fun _ _ _ _ _ _ _ hi hl _ hstep hd => gone_of_defers hi hl hstep hd
  keeps := by
    rintro t h pc cmd h' pc' a hi hl hok hstep ⟨ha, hgone⟩
    obtain ⟨-, -, hrely⟩ := step_guarantee hi hl hok hstep
    exact ⟨(hrely (t + 1) (Nat.succ_ne_self t)).linked_sub a ha,
      step_clear hi hl hstep (.inl rfl) ha hgone⟩
  idle := by
    intro h a pc hidle
    cases pc with
    | returned val => trivial
    | _ => cases hidle
  step := fun _ _ _ _ _ _ _ hi hl _ hstep hg hap =>
    step_apart hi hl hg (fun _ hp hc => step_clear hi hl hstep hp hg.1 hc) hap hstep
  stable := fun _ _ _ _ _ _ hl hr hg hap => hap.stable hr hl hg.1

/-- The calls of the operations are on keys below `2 ^ 31`. -/
def SmallWork (e : ℕ × Rcu.Input Cmd) : Prop :=
  match e.2 with
  | .work (.call op) => op.key < 2 ^ 31
  | _ => True

instance (e : ℕ × Rcu.Input Cmd) : Decidable (SmallWork e) :=
  match e with
  | (_, .work (.call op)) => inferInstanceAs (Decidable (op.key < 2 ^ 31))
  | (_, .work .resume) | (_, .update) | (_, .resume) => inferInstanceAs (Decidable True)

/-- **No use after free.**  For any number `N` of initialised threads, any interleaving of the
list operations, `rcu_defer_free` and `rcu_update`: memory that was freed is a node that was
taken out of the list, and no thread is about to read or write a field of it. -/
theorem list_freed_untouched (N : ℕ) (junk : ℕ → ℕ → ℕ) (es : List (ℕ × Rcu.Input Cmd))
    (c : Conf (Heap × Rcu.Ring) (Pc × Rcu.Pc)) (hkeys : ∀ e ∈ es, SmallWork e)
    (hrun : run (client.sys N) (Rcu.Client.start init junk) es = some c) :
    ∀ a, Rcu.Freed c.shared.2.log a →
      (a ∈ c.shared.1.linked ∧ ¬ c.shared.1.Reachable a) ∧ ∀ u, ¬ (c.thread u).1.Touches a := by
  intro a ha
  have hok : StepsMeet (client.sys N) (onThread (Rcu.Input.Meets SmallCall))
      (Rcu.Client.start init junk) es := by
    refine (stepsMeet_of_forall_mem hkeys _).mono ?_
    rintro c ⟨t, i⟩ he
    cases i with
    | work i =>
      cases i with
      | call op => exact he
      | resume => trivial
    | update | resume => trivial
  obtain ⟨hgone, hap⟩ := reclaims.apart_of_freed init_holds (fun _ => rfl) hok hrun ha
  exact ⟨hgone, fun u => (hap u).touches hgone⟩

/-- Thread 0 inserts and removes ten keys, thread 1 passes the position back, and thread 0
frees the first node; then thread 1 looks a key up. -/
def insertRemoveTenRun : List (ℕ × Rcu.Input Cmd) :=
  (List.range 10).flatMap (fun k =>
      (0, Rcu.Input.work (Cmd.call (.cas (k + 1) expectWhatever 7)))
          :: List.replicate 3 (0, Rcu.Input.work Cmd.resume)
        ++ (0, Rcu.Input.work (Cmd.call (.remove (k + 1))))
          :: List.replicate 8 (0, Rcu.Input.work Cmd.resume)
        ++ List.replicate (if k < 9 then 7 else 11) (0, Rcu.Input.resume))
    ++ (1, Rcu.Input.update) :: List.replicate 7 (1, Rcu.Input.resume)
    ++ (0, Rcu.Input.update) :: List.replicate 7 (0, Rcu.Input.resume)
    ++ [(1, Rcu.Input.work (Cmd.call (.lookup 5)))]

theorem list_freed_untouched_insert_remove :
    ∃ c, run (client.sys 2) (Rcu.Client.start init fun _ _ => 0) insertRemoveTenRun = some c
      ∧ Rcu.Freed c.shared.2.log 1 ∧ ¬ c.shared.1.Reachable 1
      ∧ ¬ (c.thread 0).1.Touches 1 ∧ ¬ (c.thread 1).1.Touches 1 := by
  have h : (run (client.sys 2) (Rcu.Client.start init fun _ _ => 0) insertRemoveTenRun).map
      (fun c => decide (.free 0 1 ∈ c.shared.2.log)) = some true := by decide +kernel
  obtain ⟨c, hc, hfree⟩ := Option.map_eq_some_iff.mp h
  have ha : Rcu.Freed c.shared.2.log 1 := ⟨0, of_decide_eq_true hfree⟩
  obtain ⟨hgone, hap⟩ := list_freed_untouched 2 _ insertRemoveTenRun c (by decide +kernel) hc 1 ha
  exact ⟨c, hc, ha, hgone.2, hap 0, hap 1⟩

end LinkedList
