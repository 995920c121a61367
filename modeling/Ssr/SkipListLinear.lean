/-
# The skiplist is linearizable

* `settles_step` — every step of a running call fits into the order of the calls;
* `explains` — rely-guarantee for the skiplist together with that order;
* `skiplist_linearizable` — the history of every run is that of a map.
-/
import Ssr.SkipListSettles

open Interleaving Map Linearizability ClaimedCells

namespace SkipList

/-! ## One step -/

section Step

variable {h h' : Heap} {g : Story} {H : History ℕ} {D : Decisions ℕ} {r : ClaimedCells.Call}
  {pc pc' : Pc} {cmd : Cmd} {t : ℕ}

/-- **One step of a call.** -/
theorem settles_step (hsound : Sound h g) (hp : pc.Sound t h g)
    (hd : Does t h.blind g h'.blind (g.after t h.blind pc.blind cmd))
    (hcall : ∀ op, cmd ≠ .call op) (hg : Good (h.cells g) H D) (hm : Marks h g D)
    (hs : pc.Stands h g H D r) (hstep : step h pc cmd = some (h', pc')) :
    Settles h g h' (g.after t h.blind pc.blind cmd) H D r pc' := by
  have hi := hsound.inv
  cases cmd with
  | call op => exact absurd rfl (hcall op)
  | rand z =>
    cases pc with
    | casRandom args => exact settles_casRandom hg hm hs hstep
    | _ => cases hstep
  | resume =>
    cases pc with
    | returned val | casRandom args => cases hstep
    | findStart c path =>
      cases hstep
      exact settles_findStart hi hg hm hs
    | findPred c f => exact settles_findPred hg hm hs hstep
    | findNext c f item =>
      cases hstep
      exact settles_findNext hi hp.safe.2.1 hg hm hs
    | findUnlink c f item next => exact settles_findUnlink hd hi hp hg hm hs hstep
    | findKey c f item next => exact settles_findKey hsound hp hg hm hs hstep
    | lookupVal item =>
      cases hstep
      exact settles_lookupVal hg hm hs
    | casHighWater args levels => exact settles_casHighWater hg hm hs hstep
    | casRaise args =>
      cases hstep
      exact .of_cells rfl (settles_of_stands (h := { h with highWater := h.highWater + 1 }) hg hm rfl hs)
    | casVal args item => exact settles_casVal hg hm hs hstep
    | casUpdate args item old => exact settles_casUpdate hg hm hs hstep
    | casAlloc args n path =>
      cases hstep
      exact settles_casAlloc hi hg hm hs _
    | casBottom args ins => exact settles_casBottom hi hp hg hm hs hstep
    | casLink key ins level => exact settles_casLink hp hg hm hs hstep
    | casReload key ins level i => exact settles_casReload hg hm hs hstep
    | casStore key ins level i old => exact settles_casStore hp hg hm hs hstep
    | casCheck key ins => exact settles_casCheck hg hm hs hstep
    | removeHighWater key =>
      cases hstep
      exact settles_of_stands hg hm rfl hs
    | removeLevels key item =>
      cases hstep
      exact settles_removeLevels hi hg hm hs
    | removeNext key item level =>
      cases hstep
      exact settles_of_stands hg hm rfl hs
    | removeMark key item level next => exact settles_removeMark hg hm hs hstep
    | removeSwap key item =>
      cases hstep
      exact settles_removeSwap hg hm hs
    | removeDefer item val =>
      cases hstep
      obtain ⟨key, hdec⟩ := hs
      exact .of_cells rfl (settles_decided (h := { h with handed := h.handed ++ [item] }) hg hm hdec)

/-- No step writes the value of a node that is not linked. -/
theorem step_mine {a : ℕ} (hm : Marks h g D) (hs : pc.Stands h g H D r)
    (hstep : step h pc cmd = some (h', pc')) (ha : a < h.brk) (hal : ¬ g.linked a 0) :
    (h'.node a).val = (h.node a).val := by
  have hval : ∀ item v, (h.cells g).live item ∨ D.claim item ≠ none →
      ((h.setVal item v).node a).val = (h.node a).val := by
    intro item v hit
    rw [h.val_setVal, if_neg]
    rintro rfl
    exact hal (hm.linked hit).2
  cases pc with
  | returned val =>
    cases cmd with
    | call op => cases op <;> cases hstep <;> rfl
    | rand | resume => cases hstep
  | casAlloc args n path =>
    cases cmd <;> cases hstep
    rw [h.node_alloc_of_ne ha.ne]
  | casUpdate args item old =>
    cases cmd <;> simp only [step, reduceCtorEq] at hstep
    split_ifs at hstep <;> cases hstep
    · exact hval item args.new hs.2.2.2.2.kept
    · rfl
  | removeSwap key item =>
    cases cmd <;> cases hstep
    exact hval item _ (.inr (by simp [hs.1]))
  | findUnlink | casBottom | casLink | casStore | removeMark =>
    cases cmd <;> simp only [step, reduceCtorEq] at hstep
    split_ifs at hstep
    all_goals
      cases hstep
      first
        | rfl
        | exact h.val_setNext _ _ _ a
  | findPred | findKey | casRandom | casHighWater | casVal | casReload | casCheck =>
    cases cmd <;> simp only [step, reduceCtorEq] at hstep
    split_ifs at hstep
    all_goals
      cases hstep
      rfl
  | findStart | findNext | lookupVal | casRaise | removeHighWater | removeLevels | removeNext
  | removeDefer =>
    cases cmd <;> cases hstep
    rfl

end Step

/-! ## Whole runs -/

/-- The condition on a step: a call has a key below `2 ^ 31`. -/
def SmallKey (e : ℕ × Cmd) : Prop :=
  match e.2 with
  | .call op => op.key < 2 ^ 31
  | .rand _ | .resume => True

/-- The condition on a step: a key below `2 ^ 31`, and a value that `sl_cas` accepts. -/
def LawfulCall (t : ℕ) (_ : Heap) (_ : Pc) (cmd : Cmd) : Prop := SmallKey (t, cmd) ∧ cmd.Asserted

/-- The program with the record of its calls. -/
abbrev recorded : ℕ → Heap × Record (ClaimedCells.Op ℕ) ℕ → Pc → Cmd →
    Option ((Heap × Record (ClaimedCells.Op ℕ) ℕ) × Pc) :=
  withStory (fun _ => step) (Record.after (fun _ => step) Cmd.called Pc.answer)

section Run

variable {h h' : Heap} {g : Story} {rec : Record (ClaimedCells.Op ℕ) ℕ} {D : Decisions ℕ}
  {pc pc' : Pc} {cmd : Cmd} {t : ℕ} {op : Op}

theorem Op.proper_onMap (hop : (Cmd.call op).Asserted) : op.onMap.Proper := by
  cases op with
  | lookup | remove => trivial
  | cas args => exact hop.1.ne'

/-- A step of the running call. -/
theorem explains_resume (hs : Sound h g) (he : Explained h g rec D) (hp : pc.Sound t h g)
    (hst : pc.Stands h g rec.events D (rec.current t)) (hcall : ∀ op, cmd ≠ .call op)
    (hstep : step h pc cmd = some (h', pc')) :
    ∃ g' D', (Sound h' g' ∧ Explained h' g' (rec.note t none pc'.answer) D')
      ∧ (pc'.Sound t h' g' ∧ pc'.Stands h' g' (rec.note t none pc'.answer).events D'
        ((rec.note t none pc'.answer).current t))
      ∧ ∀ u, u ≠ t → Regards u h g rec D h' g' (rec.note t none pc'.answer) D' := by
  obtain ⟨hd, hs', hp'⟩ := keeps_blind hs hp (fun op heq => absurd heq (hcall op)) hstep
  obtain ⟨D', hg, ⟨hm, hst'⟩, hcells⟩ := settles_step (r := rec.current t) hs hp hd hcall he.good
    he.marked hst hstep
  rw [Record.current_note]
  rw [← events_note] at hg hst' hcells
  refine ⟨_, D', ⟨hs', hg, he.numbered.note t _, hm⟩, ⟨hp', hst'⟩, fun u hu => ⟨hd.others u hu,
    hcells u hu, congrFun (rec.calls_note t _) u, fun p n hp hn hre => hd.ahead hp hn hre,
    fun a _ ha _ hal => step_mine he.marked hst hstep ha hal⟩⟩

/-- What a call starts with. -/
theorem stands_called {H : History ℕ} {r : ClaimedCells.Call} {v : ℕ}
    (hstep : step h (.returned v) (.call op) = some (h', pc'))
    (hrun : Running (h.cells g) H D r op.onMap fun _ => True) :
    h' = h ∧ pc'.answer = none ∧ pc'.Stands h g H D r := by
  cases op <;> cases hstep <;> exact ⟨rfl, rfl, hrun⟩

/-- A call. -/
theorem explains_call {v : ℕ} (hs : Sound h g) (he : Explained h g rec D)
    (hp : (Pc.returned v).Sound t h g) (hkey : op.key < 2 ^ 31) (hop : (Cmd.call op).Asserted)
    (hstep : step h (.returned v) (.call op) = some (h', pc')) :
    ∃ g' D', (Sound h' g' ∧ Explained h' g' (rec.note t (some op.onMap) pc'.answer) D')
      ∧ (pc'.Sound t h' g' ∧ pc'.Stands h' g' (rec.note t (some op.onMap) pc'.answer).events D'
        ((rec.note t (some op.onMap) pc'.answer).current t))
      ∧ ∀ u, u ≠ t → Regards u h g rec D h' g' (rec.note t (some op.onMap) pc'.answer) D' := by
  obtain ⟨hd, hs', hp'⟩ := keeps_blind hs hp (fun op' heq => by cases heq; exact hkey) hstep
  obtain ⟨hcall, hret⟩ := he.numbered (t, rec.calls t + 1) (Nat.lt_succ_self _)
  obtain ⟨D', hg, hclaim, hu, hseeks, hrely⟩ := he.good.call ⟨hcall, hret⟩ op.onMap
  obtain ⟨rfl, hanswer, hst⟩ := stands_called (g := g) hstep ⟨Op.proper_onMap hop, hu, hseeks⟩
  rw [hanswer]
  refine ⟨g, D', ⟨hs', hg, he.numbered.call t _, he.marked.order hclaim⟩, ⟨hp', ?_⟩, fun u hut =>
    ⟨hd.others u hut, hrely u hut, Record.calls_call_of_ne hut, fun _ _ _ _ hre => hre,
      fun _ _ _ _ _ => rfl⟩⟩
  change pc'.Stands h' g (rec.call t op.onMap).events D' ((rec.call t op.onMap).current t)
  rw [Record.current_call]
  exact hst

/-- **Rely-guarantee** for the skiplist together with the past of its nodes and the order of its
calls. -/
theorem explains : Explains recorded (fun t s pc cmd => LawfulCall t s.1 pc cmd)
    (fun s (x : Story × Decisions ℕ) => Sound s.1 x.1 ∧ Explained s.1 x.1 s.2 x.2)
    (fun t s x pc => pc.Sound t s.1 x.1 ∧ pc.Stands s.1 x.1 s.2.events x.2 (s.2.current t))
    (fun u s x s' x' => Regards u s.1 x.1 s.2 x.2 s'.1 x'.1 s'.2 x'.2) where
  guarantee := by
    rintro t ⟨h, rec⟩ ⟨g, D⟩ pc cmd ⟨h', rec'⟩ pc' ⟨hs, he⟩ ⟨hp, hst⟩ ⟨hkey, hok⟩ hstep
    obtain ⟨hprog, hrec⟩ := withStory_eq_some.mp hstep
    simp only [Record.after, hprog] at hrec
    subst hrec
    cases cmd with
    | rand z =>
      obtain ⟨g', D', hinv, hloc, hr⟩ := explains_resume hs he hp hst (fun _ heq => by cases heq) hprog
      exact ⟨(g', D'), hinv, hloc, hr⟩
    | resume =>
      obtain ⟨g', D', hinv, hloc, hr⟩ := explains_resume hs he hp hst (fun _ heq => by cases heq) hprog
      exact ⟨(g', D'), hinv, hloc, hr⟩
    | call op =>
      cases pc with
      | returned v =>
        obtain ⟨g', D', hinv, hloc, hr⟩ := explains_call hs he hp hkey hok hprog
        exact ⟨(g', D'), hinv, hloc, hr⟩
      | _ => cases hprog
  stable := by
    rintro u ⟨h, rec⟩ ⟨g, D⟩ ⟨h', rec'⟩ ⟨g', D'⟩ pc ⟨hs, he⟩ hr ⟨hp, hst⟩
    have hcur : rec'.current u = rec.current u := by
      rw [Record.current, Record.current, hr.calls]
    refine ⟨⟨hp.leveled.mono hr.levels.grows.water_le, hp.safe.stable hs.inv hr.levels, hp.small⟩, ?_⟩
    change pc.Stands h' g' rec'.events D' (rec'.current u)
    rw [hcur]
    exact Pc.Stands.stable (r := rec.current u) hs he hr hp hst

theorem init_explained : Explained init.shared Story.init Record.init ⟨[], fun _ => none⟩ where
  good :=
    { tracks := Tracks.nil
      answered := fun _ _ hv => absurd hv List.not_mem_nil
      legal := ⟨fun _ => 0, rfl, fun _ hn => absurd hn.2.1 hn.1, fun _ hk => absurd rfl hk⟩
      unique := fun _ _ hn => absurd hn.2.1 hn.1
      filled := fun _ hn => absurd hn.2.1 hn.1
      free := fun _ _ => rfl
      claimed := nofun
      once := nofun }
  numbered := Record.numbered_init
  marked n := by
    constructor
    · exact fun hn => absurd rfl hn
    · exact fun hn => absurd hn.2.1 hn.1

theorem init_sound : Sound init.shared Story.init where
  inv := { init_inv with handed := nofun }
  small _ := Nat.two_pow_pos 31

end Run

/-- The history of a run. -/
abbrev mapHistory (es : List (ℕ × Cmd)) : History ℕ :=
  history (fun _ => step) Cmd.called Pc.answer init es

/-- **Linearizability of the skiplist.**  In every run of any number of threads, with keys below
`2 ^ 31` and values that `sl_cas` accepts, the calls of `sl_lookup`, `sl_cas` and `sl_remove`
answer as those of a map, in an order that agrees with the order of the calls in time. -/
theorem skiplist_linearizable (es : List (ℕ × Cmd)) (c : Conf Heap Pc) (hkeys : ∀ e ∈ es, SmallKey e)
    (hok : ∀ e ∈ es, e.2.Asserted) (hrun : run sys init es = some c) :
    Linearizable (mapSpec ℕ) (mapHistory es) := by
  obtain ⟨rec, hrec⟩ := run_withStory
    (Record.after (fun _ => step) Cmd.called Pc.answer) Record.init hrun
  have hmeets : StepsMeet (interleave recorded) (onThread fun t s pc cmd => LawfulCall t s.1 pc cmd)
      (init.withStory Record.init) es :=
    (stepsMeet_of_forall_mem (P := fun e => SmallKey e ∧ e.2.Asserted)
      (fun e he => ⟨hkeys e he, hok e he⟩) _).mono fun _ _ he => he
  obtain ⟨⟨g, D⟩, ⟨-, he⟩, -⟩ := explains.holds_run (c := init.withStory Record.init)
    (g := (Story.init, ⟨[], fun _ => none⟩)) ⟨init_sound, init_explained⟩
    (fun t => ⟨⟨trivial, trivial, Nat.two_pow_pos 31⟩, trivial⟩) hmeets hrec
  obtain ⟨m, hm, -⟩ := he.good.legal
  have hhist : mapHistory es = rec.events := by
    simp only [mapHistory, history, hrec]
    rfl
  rw [hhist]
  exact ⟨D.log, he.good.tracks.linearizes (by rw [hm]; rfl) he.good.answered⟩

/-- Thread 1 is about to replace the value of the key when thread 2 marks its node and thread 0
inserts the key anew; then thread 1 replaces the value, and thread 2 takes it. -/
def lateUpdate : List (ℕ × Cmd) :=
  List.flatten [
    [(0, .call (.cas ⟨5, expectDoesNotExist, 7⟩)), (0, .rand 0)], List.replicate 5 (0, .resume),
    [(1, .call (.cas ⟨5, expectWhatever, 9⟩)), (1, .rand 0)], List.replicate 5 (1, .resume),
    [(2, .call (.remove 5))], List.replicate 8 (2, .resume),
    [(0, .call (.cas ⟨5, expectDoesNotExist, 8⟩)), (0, .rand 0)], List.replicate 7 (0, .resume),
    [(1, .resume)], List.replicate 6 (2, .resume)]

theorem skiplist_linearizable_late_update :
    mapHistory lateUpdate = [.call (0, 1) (.write .add 5 7), .ret (0, 1) 0,
        .call (1, 1) (.write .put 5 9), .call (2, 1) (.remove 5), .call (0, 2) (.write .add 5 8),
        .ret (0, 2) 0, .ret (1, 1) 7, .ret (2, 1) 9]
      ∧ Linearizable (mapSpec ℕ) (mapHistory lateUpdate) := by
  obtain ⟨c, hc⟩ := Option.isSome_iff_exists.mp (show (run sys init lateUpdate).isSome by
    decide +kernel)
  exact ⟨by decide +kernel, skiplist_linearizable lateUpdate c
    (by simp [lateUpdate, SmallKey, Op.key]) (by decide) hc⟩

end SkipList
