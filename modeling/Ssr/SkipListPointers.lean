/-
# The nodes that a later operation comes to

An operation that starts after a node was handed to `rcu_defer_free` does not come to that
node: no step of it reads or writes a field of the node.  It sets out from `sl->head`, and
what it comes to does not lead to the node: an unmarked node is reached from the head, from
where the node that was handed over is not reached any more.

A link that is read need not be followed.  `sl_remove` can read a marked link to the node
out of a node that was unlinked from that level before, and marks it again.
-/
import Ssr.SkipListReclaim

open Interleaving Map LinkedChain
open LinkedList (Link)

namespace SkipList

/-- The next step reads or writes a field of node `a`. -/
def Pc.Touches (a : ℕ) : Pc → Prop
  | .findPred _ f | .findUnlink _ f _ _ => f.pred = a
  | .findNext _ _ item | .findKey _ _ item _ => item = a
  | .lookupVal item | .casVal _ item | .casUpdate _ item _ => item = a
  | .casBottom _ ins => ins.path.preds 0 = a
  | .casLink _ ins level => ins.path.preds level = a
  | .casReload _ ins _ _ | .casStore _ ins _ _ _ | .casCheck _ ins => ins.newItem = a
  | .removeLevels _ item | .removeNext _ item _ | .removeMark _ item _ _ | .removeSwap _ item
  | .removeDefer item _ => item = a
  | _ => False

/-! ## Away from a node -/

/-- `p` does not lead to `a` on a level. -/
def Clear (h : Heap) (a level p : ℕ) : Prop := ¬ Chain.Reach (h.succ level) p a

/-- The node that the caller works on is another one. -/
def Caller.Apart (a : ℕ) : Caller → Prop
  | .relink _ newItem _ _ => newItem ≠ a
  | .unlinkRemoved _ item _ => item ≠ a
  | _ => True

/-- No recorded predecessor is `a`. -/
def Path.Apart (a : ℕ) (path : Path) : Prop := ∀ l, path.preds l ≠ a

/-- The search stands where nothing leads to `a`, on its level or below. -/
structure Find.Apart (h : Heap) (a : ℕ) (c : Caller) (f : Find) : Prop where
  caller : c.Apart a
  path : f.path.Apart a
  item : f.item ≠ some a
  pred : ∀ l, l ≤ f.level → Clear h a l f.pred

/-- A thread works away from `a`. -/
def Pc.Apart (h : Heap) (a : ℕ) : Pc → Prop
  | .findStart c path => c.Apart a ∧ path.Apart a
  | .findPred c f => f.Apart h a c
  | .findNext c f item | .findUnlink c f item _ => f.Apart h a c ∧ Clear h a f.level item
  | .findKey c f item next =>
    f.Apart h a c ∧ (∀ l, l ≤ f.level → Clear h a l item)
      ∧ ∀ b, next.node = some b → Clear h a f.level b
  | .lookupVal item | .casVal _ item | .casUpdate _ item _ => item ≠ a
  | .casAlloc _ _ path => path.Apart a
  | .casBottom _ ins | .casLink _ ins _ | .casReload _ ins _ _ | .casStore _ ins _ _ _
  | .casCheck _ ins => ins.newItem ≠ a ∧ ins.path.Apart a
  | .removeLevels _ item | .removeNext _ item _ | .removeMark _ item _ _ | .removeSwap _ item
  | .removeDefer item _ => item ≠ a
  | _ => True

section Apart

variable {t a level : ℕ} {h h' : Heap} {g g' : Story} {c : Caller} {f : Find} {pc pc' : Pc}
  {cmd : Cmd}

theorem Clear.ne {p : ℕ} (hp : Clear h a level p) : p ≠ a := by
  rintro rfl
  exact hp (Chain.Reach.refl p)

theorem Clear.succ {p b : ℕ} (hp : Clear h a level p) (hb : h.succ level p = some b) :
    Clear h a level b :=
  fun hba => hp (hba.head hb)

theorem Pc.Apart.touches (hap : pc.Apart h a) : ¬ pc.Touches a := by
  cases pc with
  | findPred c f => exact (hap.pred f.level le_rfl).ne
  | findUnlink c f item next => exact (hap.1.pred f.level le_rfl).ne
  | findNext c f item => exact hap.2.ne
  | findKey c f item next => exact (hap.2.1 f.level le_rfl).ne
  | lookupVal | casVal | casUpdate | removeLevels | removeNext | removeMark | removeSwap
  | removeDefer => exact hap
  | casBottom args ins => exact hap.2 0
  | casLink key ins level => exact hap.2 level
  | casReload | casStore | casCheck => exact hap.1
  | returned | findStart | casRandom | casHighWater | casRaise | casAlloc | removeHighWater =>
    exact id

/-! ## Steps of other threads -/

theorem Find.Apart.stable (hi : Inv h g) (hg : Grows h g h' g') (hr : Removed h g a)
    (hs : Searching t h g c f) (hf : f.Apart h a c) : f.Apart h' a c :=
  { hf with
    pred := fun l hl =>
      hg.clear f.pred a l (hi.linked_of_le hl hs.stands.linked) hr (hf.pred l hl) }

theorem Pc.Apart.stable (hi : Inv h g) (hg : Grows h g h' g') (hr : Removed h g a)
    (hs : pc.Safe t h g) (hap : pc.Apart h a) : pc.Apart h' a := by
  cases pc with
  | findPred c f => exact Find.Apart.stable hi hg hr hs.1 hap
  | findNext c f item | findUnlink c f item next =>
    obtain ⟨hf, hit⟩ := hap
    exact ⟨hf.stable hi hg hr hs.1, hg.clear item a f.level (hs.2.1 item rfl).2 hr hit⟩
  | findKey c f item next =>
    obtain ⟨hf, hit, hn⟩ := hap
    refine ⟨hf.stable hi hg hr hs.1, fun l hl => ?_, fun b hb => ?_⟩
    · exact hg.clear item a l (hi.linked_of_le hl (hs.2.1 item rfl).2) hr (hit l hl)
    · exact hg.clear b a f.level (hs.2.2.1 b hb).2 hr (hn b hb)
  | returned | findStart | lookupVal | casRandom | casHighWater | casRaise | casVal | casUpdate
  | casAlloc | casBottom | casLink | casReload | casStore | casCheck | removeHighWater
  | removeLevels | removeNext | removeMark | removeSwap | removeDefer => exact hap

/-! ## The thread's own steps -/

theorem apart_resume {path : Path} {item : Option ℕ} (hc : c.Apart a) (hp : path.Apart a)
    (hit : item ≠ some a) : (resume c path item).Apart h a := by
  cases c with
  | lookup key | remove key n =>
    cases item with
    | some i => exact fun heq => hit (congrArg some heq)
    | none => trivial
  | cas args n =>
    cases item with
    | some i => exact fun heq => hit (congrArg some heq)
    | none =>
      simp only [resume]
      split
      · trivial
      · exact hp
  | relink key newItem n level =>
    simp only [resume, reloadLevel]
    split <;> exact ⟨hc, hp⟩
  | clean key => trivial
  | unlinkRemoved key item val => exact hc

theorem apart_descend (hc : c.Apart a) (hp : f.path.Apart a) (hit : f.item ≠ some a)
    (hpred : ∀ l, l < level → Clear h a l f.pred) : (descend c f level).Apart h a := by
  cases level with
  | succ level => exact ⟨hc, hp, hit, fun l hl => hpred l (Nat.lt_succ_of_le hl)⟩
  | zero =>
    refine apart_resume hc hp ?_
    split
    · exact hit
    · simp

theorem apart_levelDone {item : Option ℕ} (hf : f.Apart h a c) (hit : item ≠ some a) :
    (levelDone c f item).Apart h a := by
  refine apart_descend hf.caller ?_ hit fun l hl => hf.pred l hl.le
  split
  · intro l
    by_cases hl : l = f.level
    · simp only [Path.record, hl, Function.update_self]
      exact (hf.pred f.level le_rfl).ne
    · simp only [Path.record, Function.update_of_ne hl]
      exact hf.path l
  · exact hf.path

theorem apart_visit {item : Option ℕ} (hf : f.Apart h a c)
    (hit : ∀ b, item = some b → Clear h a f.level b) : (visit c f item).Apart h a := by
  cases item with
  | some b => exact ⟨hf, hit b rfl⟩
  | none => exact apart_levelDone hf (by simp)

theorem apart_examine {item : ℕ} (hi : Inv h g) (hgone : ∀ l, ¬ h.Reaches l a)
    (hit : g.linked item f.level) (hf : f.Apart h a c) (hclear : Clear h a f.level item) :
    (examine c f item (h.next item f.level)).Apart h a := by
  unfold examine
  split
  · split
    · exact apart_visit hf fun b hb => hclear.succ hb
    · exact ⟨hf, hclear⟩
  · rename_i hm
    refine ⟨hf, fun l hl hre => hgone l ?_, fun b hb => hclear.succ hb⟩
    -- an unmarked node is reached on every level below
    have hm' : h.marked f.level item = false := Bool.not_eq_true _ ▸ hm
    have hreached : h.Reaches l item :=
      (hi.leads l).reached item (hi.linked_of_le hl hit) (hi.unmarked_below hit hm' hl)
    exact hreached.trans hre

theorem Path.apart_empty (ha : a ≠ 0) : Path.empty.Apart a := fun _ => ha.symm

theorem apart_search (ha : a ≠ 0) (hc : c.Apart a) : (search c).Apart h a :=
  ⟨hc, Path.apart_empty ha⟩

theorem apart_reloadLevel {key i : ℕ} {ins : Insert} (hins : ins.newItem ≠ a ∧ ins.path.Apart a) :
    (reloadLevel key ins level i).Apart h a := by
  unfold reloadLevel
  split <;> exact hins

theorem apart_linkLevel {key : ℕ} {ins : Insert} (hins : ins.newItem ≠ a ∧ ins.path.Apart a) :
    (linkLevel key ins level).Apart h a := by
  unfold linkLevel
  split <;> exact hins

theorem apart_markLevel {key item : ℕ} (hit : item ≠ a) :
    (markLevel key item level).Apart h a := by
  cases level <;> exact hit

theorem apart_findUnlink {item : ℕ} {next : Link} (hi : Inv h g) (hg : Grows h g h' g')
    (hr : Removed h g a) (hs : (Pc.findUnlink c f item next).Safe t h g)
    (hap : (Pc.findUnlink c f item next).Apart h a)
    (hstep : step h (.findUnlink c f item next) .resume = some (h', pc')) : pc'.Apart h' a := by
  obtain ⟨hs, hit, rfl, hm⟩ := hs
  obtain ⟨hf, hclear⟩ := hap
  simp only [step] at hstep
  split at hstep
  · cases hstep
    refine apart_visit (hf.stable hi hg hr hs) fun b hb => ?_
    exact hg.clear b a f.level (hi.on_succ (hit item rfl).2 b hb).2 hr (hclear.succ hb)
  · split at hstep <;> cases hstep
    · exact ⟨hf.caller, hf.path⟩
    · exact apart_visit hf fun b hb => (hf.pred f.level le_rfl).succ hb

/-- A step of the thread itself keeps away from the node. -/
theorem step_apart (hi : Inv h g) (hg : Grows h g h' g') (hr : Removed h g a)
    (hgone : ∀ l, ¬ h.Reaches l a) (hs : pc.Safe t h g) (hap : pc.Apart h a)
    (hstep : step h pc cmd = some (h', pc')) : pc'.Apart h' a := by
  have h0 := hr.ne_zero
  cases pc with
  | returned val =>
    cases cmd with
    | call op =>
      cases op <;> cases hstep
      · exact apart_search h0 trivial
      · trivial
      · trivial
    | rand | resume => cases hstep
  | lookupVal item | removeDefer item val =>
    cases cmd <;> cases hstep
    trivial
  | removeHighWater key =>
    cases cmd <;> cases hstep
    exact apart_search h0 trivial
  | findStart c path =>
    cases cmd <;> cases hstep
    refine apart_descend hap.1 hap.2 (by simp) fun l _ => hgone l
  | findPred c f =>
    cases cmd <;> simp only [step, reduceCtorEq] at hstep
    split at hstep
    · cases hstep
      exact apart_descend hap.caller hap.path hap.item fun l hl => hap.pred l hl.le
    · split at hstep <;> cases hstep
      · exact ⟨hap.caller, hap.path⟩
      · exact apart_visit hap fun b hb => (hap.pred f.level le_rfl).succ hb
  | findNext c f item =>
    cases cmd <;> cases hstep
    exact apart_examine hi hgone (hs.2.1 item rfl).2 hap.1 hap.2
  | findUnlink c f item next =>
    cases cmd with
    | resume => exact apart_findUnlink hi hg hr hs hap hstep
    | call | rand => cases hstep
  | findKey c f item next =>
    obtain ⟨hf, hit, hn⟩ := hap
    cases cmd <;> simp only [step, reduceCtorEq] at hstep
    split at hstep <;> cases hstep
    · refine apart_levelDone ⟨hf.caller, hf.path, hf.item, hf.pred⟩ fun heq => ?_
      exact (hit f.level le_rfl).ne (Option.some.inj heq)
    · exact apart_visit ⟨hf.caller, hf.path, hf.item, hit⟩ hn
  | casRandom args | casHighWater args levels =>
    cases cmd <;> simp only [step, reduceCtorEq] at hstep
    repeat' split at hstep
    all_goals
      cases hstep <;> first
        | trivial
        | exact apart_search h0 trivial
  | casRaise args =>
    cases cmd <;> cases hstep
    exact apart_search h0 trivial
  | casVal args item | casUpdate args item old =>
    cases cmd <;> simp only [step, reduceCtorEq] at hstep
    repeat' split at hstep
    all_goals
      cases hstep
      trivial
  | casAlloc args n path =>
    cases cmd <;> cases hstep
    exact ⟨(hi.lt_brk hr.linked).ne', hap⟩
  | casBottom args ins =>
    cases cmd <;> simp only [step, reduceCtorEq] at hstep
    split at hstep <;> cases hstep
    · exact apart_linkLevel hap
    · trivial
  | casLink key ins level =>
    cases cmd <;> simp only [step, reduceCtorEq] at hstep
    split at hstep <;> cases hstep
    · exact apart_linkLevel hap
    · exact hap
  | casReload key ins level i =>
    cases cmd <;> simp only [step, reduceCtorEq] at hstep
    split at hstep <;> cases hstep
    · exact apart_reloadLevel hap
    · exact hap
  | casStore key ins level i old =>
    cases cmd <;> simp only [step, reduceCtorEq] at hstep
    split at hstep <;> cases hstep
    · exact apart_search h0 trivial
    · exact apart_reloadLevel hap
  | casCheck key ins =>
    cases cmd <;> simp only [step, reduceCtorEq] at hstep
    split at hstep <;> cases hstep
    · exact apart_search h0 trivial
    · trivial
  | removeLevels key item =>
    cases cmd <;> cases hstep
    exact apart_markLevel hap
  | removeNext key item level =>
    cases cmd <;> cases hstep
    exact hap
  | removeMark key item level next =>
    cases cmd <;> simp only [step, reduceCtorEq] at hstep
    repeat' split at hstep
    all_goals
      cases hstep
      first
        | trivial
        | exact apart_markLevel hap
  | removeSwap key item =>
    cases cmd <;> cases hstep
    exact apart_search h0 hap

end Apart

/-! ## Whole runs -/

/-- Rely-guarantee with threads that work away from a node that was handed over. -/
theorem reclaims_apart (a : ℕ) (away : ℕ → Prop) :
    RelyGuarantee (withStory (fun _ => step) Story.after) (fun t s pc cmd => Timely t s.1 pc cmd)
      (fun s => Inv s.1 s.2 ∧ a ∈ s.1.handed)
      (fun t s pc => pc.Local t s ∧ (away t → pc.Apart s.1 a))
      (fun t s s' => Rely t s.1 s.2 s'.1 s'.2) where
  guarantee := by
    rintro t s pc cmd s' pc' ⟨hi, ha⟩ ⟨hl, hap⟩ hok hstep
    obtain ⟨hinv, hl', hrely⟩ := reclaims.guarantee t s pc cmd s' pc' hi hl hok hstep
    obtain ⟨hstep, -⟩ := withStory_eq_some.mp hstep
    obtain ⟨hrem, hgone⟩ := hi.handed a ha
    have hg : Grows s.1 s.2 s'.1 s'.2 := (hrely (t + 1) (Nat.lt_succ_self t).ne').grows
    refine ⟨⟨hinv, hg.handed_sub a ha⟩, ⟨hl', fun ht => ?_⟩, hrely⟩
    exact step_apart hi hg hrem hgone hl.2 (hap ht) hstep
  stable := by
    rintro t s s' pc ⟨hi, ha⟩ hr ⟨hl, hap⟩
    obtain ⟨hrem, -⟩ := hi.handed a ha
    exact ⟨reclaims.stable t s s' pc hi hr hl, fun ht => (hap ht).stable hi hr.grows hrem hl.2⟩

/-- **Reclamation.**  In a run that is timely, a node that `sl_remove` has handed over is on
no level, in every state from then on, and a thread that is not in an operation at the
hand-over never reads or writes a field of it. -/
theorem reclaimed_when_timely (es es' : List (ℕ × Cmd)) (c c' : Conf Heap Pc)
    (hok : StepsMeet sys (onThread Timely) init (es ++ es')) (hrun : run sys init es = some c)
    (hrun' : run sys c es' = some c') :
    ∀ a ∈ c.shared.handed, (∀ level, ¬ c'.shared.Reaches level a)
      ∧ ∀ u v, c.thread u = .returned v → ¬ (c'.thread u).Touches a := by
  intro a ha
  obtain ⟨g, hi, hl⟩ := reclaims.holds_run_story init_holds hok.of_append_left hrun
  have hnow : (c.withStory g).Holds (fun s => Inv s.1 s.2 ∧ a ∈ s.1.handed) fun t s pc =>
      pc.Local t s ∧ ((∃ v, c.thread t = .returned v) → pc.Apart s.1 a) := by
    refine ⟨⟨hi, ha⟩, fun t => ⟨hl t, ?_⟩⟩
    rintro ⟨v, hv⟩
    have hthread : (c.withStory g).thread t = .returned v := hv
    rw [hthread]
    trivial
  obtain ⟨g', ⟨hi', ha'⟩, hl'⟩ :=
    (reclaims_apart a _).holds_run_story hnow (hok.of_append hrun) hrun'
  refine ⟨(hi'.handed a ha').2, fun u v hu => ?_⟩
  exact ((hl' u).2 ⟨v, hu⟩).touches

/-- Thread 0 inserts a node of two levels, and thread 1 removes the key. -/
def insertedRemoved : List (ℕ × Cmd) :=
  (0, Cmd.call (.cas ⟨5, expectDoesNotExist, 7⟩)) :: (0, Cmd.rand 3)
      :: List.replicate 9 (0, Cmd.resume)
    ++ (1, Cmd.call (.remove 5)) :: List.replicate 22 (1, Cmd.resume)

/-- Afterwards thread 2 looks the key up. -/
def lookedUp : List (ℕ × Cmd) := (2, .call (.lookup 5)) :: List.replicate 3 (2, .resume)

theorem reclaimed_inserted_removed :
    ∃ c c', run sys init insertedRemoved = some c ∧ c.shared.handed = [1]
      ∧ run sys c lookedUp = some c' ∧ (∀ level, ¬ c'.shared.Reaches level 1)
      ∧ ¬ (c'.thread 2).Touches 1 := by
  have hok : StepsMeet sys (onThread Timely) init (insertedRemoved ++ lookedUp) := by
    decide +kernel
  obtain ⟨c, hc, heq⟩ := Option.map_eq_some_iff.mp (show
    (run sys init insertedRemoved).map (fun c => c.shared.handed) = some [1] by decide +kernel)
  obtain ⟨c', hc', -⟩ := Option.map_eq_some_iff.mp (show
    (run sys init (insertedRemoved ++ lookedUp)).map (fun c => c.shared.handed) = some [1] by
      decide +kernel)
  rw [run_append, hc] at hc'
  have hidle : c.thread 2 = .returned doesNotExist :=
    run_thread_eq (t := 2) (by decide) hc
  obtain ⟨hgone, hapart⟩ := reclaimed_when_timely insertedRemoved lookedUp c c' hok hc hc' 1
    (by rw [heq]; exact List.mem_singleton_self 1)
  exact ⟨c, c', hc, heq, hc', hgone, hapart 2 doesNotExist hidle⟩

/-- Thread 0 has linked a node of two levels at level `0` when thread 1 removes the key. -/
def removedMeanwhile : List (ℕ × Cmd) :=
  (0, Cmd.call (.cas ⟨5, expectDoesNotExist, 7⟩)) :: (0, Cmd.rand 3)
      :: List.replicate 7 (0, Cmd.resume)
    ++ (1, Cmd.call (.remove 5)) :: List.replicate 18 (1, Cmd.resume)

/-- Thread 0 goes on to link it at level `1`, and thread 2 looks the key up. -/
def linkedLate : List (ℕ × Cmd) :=
  (0, .resume) :: (2, .call (.lookup 5)) :: List.replicate 2 (2, .resume)

/-- Three keys of which each is below the next, in a circle: thread 1 finds the first one
behind the third, and misses it behind the second, which has been inserted meanwhile. -/
def circularKeys : List (ℕ × Cmd) :=
  let insert (key steps : ℕ) : List (ℕ × Cmd) :=
    (0, .call (.cas ⟨key, expectDoesNotExist, 7⟩)) :: (0, .rand 0)
      :: List.replicate steps (0, .resume)
  insert 0 5 ++ insert 3000000000 7
    ++ (1, .call (.remove 0)) :: List.replicate 10 (1, .resume)
    ++ insert 1500000000 7 ++ List.replicate 6 (1, .resume)

/-- A node that was handed over comes back to level `1`, and an operation that starts after
that comes to it; with keys further apart, a node is handed over without leaving level `0`. -/
theorem handed_linked_again :
    (∃ c c', run sys init removedMeanwhile = some c ∧ c.shared.handed = [1]
        ∧ c.thread 2 = .returned doesNotExist
        ∧ run sys c linkedLate = some c' ∧ c'.shared.Reaches 1 1 ∧ (c'.thread 2).Touches 1)
      ∧ ∃ c, run sys init circularKeys = some c ∧ c.shared.handed = [1] ∧ c.shared.Reaches 0 1 := by
  refine ⟨⟨_, _, rfl, rfl, rfl, rfl, ?_, rfl⟩, ?_⟩
  · exact .head (b := 1) rfl (.refl 1)
  · obtain ⟨c, hc, heq⟩ := Option.map_eq_some_iff.mp (show
      (run sys init circularKeys).map (fun c => (c.shared.handed, [0, 3, 2].map (c.shared.succ 0)))
        = some ([1], [some 3, some 2, some 1]) by decide +kernel)
    simp only [List.map_cons, List.map_nil, Prod.mk.injEq, List.cons.injEq, and_true] at heq
    obtain ⟨hhanded, h0, h3, h2⟩ := heq
    exact ⟨c, hc, hhanded, .head h0 (.head h3 (.head h2 (.refl 1)))⟩

end SkipList
