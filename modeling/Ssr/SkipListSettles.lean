/-
# Every step of the skiplist fits into the order of the calls

The CAS that links a node on the bottom level, the CAS that marks it there and the CAS of a value
decide the call they belong to; a search that ends on the bottom level in front of its place
decides a call that finds nothing.  No step on a level above shows in the cells.

* `Settles` — there is an order for the step;
* `settles_findPred`, …, `settles_removeSwap` — one lemma for each step of the functions;
* `settles_step` — all of them.
-/
import Ssr.SkipListHistory

open Interleaving Map Linearizability ClaimedCells
open LinkedList (Link writeMode)

namespace SkipList

/-! ## Stores and the cells -/

section View

variable {h h' : Heap} {g g' : Story} {D D' : Decisions ℕ} {a n v level : ℕ} {o : Link}

/-- A store that leaves the mark of the bottom link as it is. -/
theorem Heap.marked_setNext_zero (ho : level = 0 → o.mark = h.marked 0 a) (b : ℕ) :
    (h.setNext a level o).marked 0 b = h.marked 0 b := by
  rw [Heap.marked, Heap.next_setNext]
  split_ifs with hb
  · rw [ho hb.2.symm, hb.1]
  · rfl

/-- The cells show the key, the value and the mark on the bottom level. -/
theorem Heap.cells_congr (hkey : ∀ b, (h'.node b).key = (h.node b).key)
    (hval : ∀ b, (h'.node b).val = (h.node b).val) (hmark : ∀ b, h'.marked 0 b = h.marked 0 b)
    (hlinked : ∀ b, g'.linked b 0 ↔ g.linked b 0) : h'.cells g' = h.cells g := by
  ext b
  · exact hkey b
  · exact hval b
  · simp only [Heap.cells]
    rw [hmark b, hlinked b]

/-- It leaves the map as it is. -/
theorem Heap.cells_setNext (ho : level = 0 → o.mark = h.marked 0 a) :
    (h.setNext a level o).cells g = h.cells g :=
  cells_congr (h.key_setNext a level o) (h.val_setNext a level o) (marked_setNext_zero ho)
    fun _ => Iff.rfl

/-- A node that is linked at the bottom comes into the map. -/
theorem Heap.cells_link (hn0 : n ≠ 0) (hm : h.marked 0 n = false) :
    h.cells (g.link n 0) = { h.cells g with live := fun x => (h.cells g).live x ∨ x = n } := by
  ext b
  · rfl
  · rfl
  · change (b ≠ 0 ∧ (g.linked b 0 ∨ b = n ∧ (0 : ℕ) = 0) ∧ h.marked 0 b = false)
      ↔ (b ≠ 0 ∧ g.linked b 0 ∧ h.marked 0 b = false) ∨ b = n
    constructor
    · rintro ⟨hb0, hb | hb, hmb⟩
      · exact .inl ⟨hb0, hb, hmb⟩
      · exact .inr hb.1
    · rintro (⟨hb0, hb, hmb⟩ | rfl)
      · exact ⟨hb0, .inl hb, hmb⟩
      · exact ⟨hn0, .inr ⟨rfl, rfl⟩, hm⟩

/-- A store of a value. -/
theorem Heap.cells_setVal :
    (h.setVal n v).cells g = { h.cells g with val := Function.update (h.cells g).val n v } := by
  ext b
  · exact h.key_setVal n v b
  · change ((h.setVal n v).node b).val = Function.update (fun x => (h.node x).val) n v b
    rw [h.val_setVal, Function.update_apply]
  · simp only [Heap.cells, Heap.marked, Heap.next_setVal]

/-- A node that is marked goes out of the map. -/
theorem Heap.cells_mark (ho : o.mark = true) :
    (h.setNext n 0 o).cells g
      = { h.cells g with live := fun x => (h.cells g).live x ∧ x ≠ n } := by
  ext b
  · exact h.key_setNext n 0 o b
  · exact h.val_setNext n 0 o b
  · change (b ≠ 0 ∧ g.linked b 0 ∧ ((h.setNext n 0 o).next b 0).mark = false)
      ↔ (b ≠ 0 ∧ g.linked b 0 ∧ h.marked 0 b = false) ∧ b ≠ n
    rw [h.next_setNext]
    by_cases hb : b = n
    · simp [hb, ho]
    · simp [hb, Heap.marked]

/-- Marks and claims that are the same. -/
theorem Marks.congr (hm : Marks h g D) (hmark : ∀ b, h'.marked 0 b = h.marked 0 b)
    (hlinked : ∀ b, g'.linked b 0 ↔ g.linked b 0) (hclaim : D'.claim = D.claim) :
    Marks h' g' D' := by
  intro b
  rw [hclaim, hm b, hmark b, hlinked b]

/-- A decision that claims nothing. -/
theorem Marks.order (hm : Marks h g D) (hclaim : D'.claim = D.claim) : Marks h g D' :=
  hm.congr (fun _ => rfl) (fun _ => Iff.rfl) hclaim

/-- A new node is not marked. -/
theorem Marks.link (hm : Marks h g D) (hn : h.marked 0 n = false)
    (hclaim : D'.claim = D.claim) : Marks h (g.link n 0) D' := by
  intro b
  rw [hclaim, hm b]
  change (b ≠ 0 ∧ g.linked b 0 ∧ h.marked 0 b = true)
    ↔ b ≠ 0 ∧ (g.linked b 0 ∨ b = n ∧ (0 : ℕ) = 0) ∧ h.marked 0 b = true
  constructor
  · exact fun hb => ⟨hb.1, .inl hb.2.1, hb.2.2⟩
  · rintro ⟨hb0, hb | hb, hmb⟩
    · exact ⟨hb0, hb, hmb⟩
    · rw [hb.1, hn] at hmb
      cases hmb

/-- The thread that marks a node has a claim on it. -/
theorem Marks.claim {r : ClaimedCells.Call} (hm : Marks h g D) (hn0 : n ≠ 0) (hn : g.linked n 0)
    (ho : o.mark = true) (hc : D'.claim = Function.update D.claim n (some r)) :
    Marks (h.setNext n 0 o) g D' := by
  intro b
  rw [hc, Heap.marked, h.next_setNext]
  by_cases hb : b = n
  · rw [hb, Function.update_self]
    simp [hn0, hn, ho]
  · rw [Function.update_of_ne hb, if_neg fun heq => hb heq.1]
    exact hm b

/-- A node that was linked is live or claimed. -/
theorem Marks.kept (hm : Marks h g D) (hn0 : n ≠ 0) (hn : g.linked n 0) :
    (h.cells g).live n ∨ D.claim n ≠ none := by
  cases hmark : h.marked 0 n with
  | true => exact .inr ((hm n).mpr ⟨hn0, hn, hmark⟩)
  | false => exact .inl ⟨hn0, hn, hmark⟩

/-- A node of the map, or with a claim on it, was linked. -/
theorem Marks.linked (hm : Marks h g D) (hn : (h.cells g).live n ∨ D.claim n ≠ none) :
    n ≠ 0 ∧ g.linked n 0 :=
  hn.elim (fun hl => ⟨hl.1, hl.2.1⟩) fun hc => ⟨((hm n).mp hc).1, ((hm n).mp hc).2.1⟩

/-- A node that is met unmarked has not been claimed. -/
theorem Marks.seen {H : History ℕ} {r : ClaimedCells.Call} (hm : Marks h g D)
    (hn : h.marked 0 n = false) : Seen H D r n := by
  intro c hc
  have hclaimed := ((hm n).mp (by simp [hc])).2.2
  rw [hn] at hclaimed
  cases hclaimed

end View

/-! ## Where live nodes are -/

section Live

variable {h : Heap} {g : Story} {a n level : ℕ}

/-- A node of the map is reached from the head. -/
theorem Inv.reaches_of_live (hi : Inv h.blind g) (hn : (h.cells g).live n) : h.Ahead 0 n :=
  (hi.leads 0).reached n hn.2.1 hn.2.2

/-- A node behind is behind the next one. -/
theorem ahead_succ (hre : h.Ahead a n) (hne : n ≠ a) : ∃ b, h.succ 0 a = some b ∧ h.Ahead b n :=
  hre.cases_head.resolve_left hne.symm

/-- The keys grow along the bottom level. -/
theorem Inv.key_of_ahead (hi : Inv h.blind g) (ha0 : a ≠ 0) (ha : g.linked a 0)
    (hre : h.Ahead a n) : n = a ∨ (h.node a).key < (h.node n).key := by
  obtain ⟨-, heq | hlt⟩ := (hi.leads 0).le_of_reach ha hre
  · exact .inl heq.symm
  · exact .inr (hlt.key_lt ha0)

/-- A node with a smaller key lies before a live one. -/
theorem Inv.ahead_of_key_lt (hi : Inv h.blind g) (ha0 : a ≠ 0) (ha : g.linked a 0)
    (hm : h.marked 0 a = false) (hn : (h.cells g).live n) (hlt : (h.node a).key < (h.node n).key) :
    h.Ahead a n := by
  have hra : h.Ahead 0 a := hi.reaches_of_live ⟨ha0, ha, hm⟩
  refine (hra.total (hi.reaches_of_live hn)).resolve_right fun hna => ?_
  rcases hi.key_of_ahead hn.1 hn.2.1 hna with rfl | hlt'
  · exact lt_irrefl _ hlt
  · exact lt_asymm hlt hlt'

/-- Between two nodes that follow one another there is no key. -/
theorem Inv.absent (hi : Inv h.blind g) {key : ℕ} {s : Option ℕ} (ha : g.linked a 0)
    (hlt : a = 0 ∨ (h.node a).key < key) (hnext : h.next a 0 = ⟨s, false⟩)
    (hgt : ∀ b, s = some b → b ≠ 0 ∧ g.linked b 0 ∧ key < (h.node b).key)
    (hn : (h.cells g).live n) : (h.node n).key ≠ key := by
  rintro rfl
  have hre : h.Ahead a n := by
    rcases hlt with rfl | hlt
    · exact hi.reaches_of_live hn
    · by_cases ha0 : a = 0
      · rw [ha0]
        exact hi.reaches_of_live hn
      · exact hi.ahead_of_key_lt ha0 ha (by rw [Heap.marked, hnext]) hn hlt
  have hne : n ≠ a := by
    rintro rfl
    exact hlt.elim hn.1 (lt_irrefl _)
  obtain ⟨b, hb, hbn⟩ := ahead_succ hre hne
  rw [Heap.succ, hnext] at hb
  obtain ⟨hb0, hbl, hkb⟩ := hgt b hb
  rcases hi.key_of_ahead hb0 hbl hbn with rfl | hlt'
  · exact lt_irrefl _ hkb
  · exact lt_asymm hkb hlt'

end Live

/-! ## Where a step leads -/

/-- There is an order for a step of call `r` from `h` to `h'` that comes to `pc`. -/
def Settles (h : Heap) (g : Story) (h' : Heap) (g' : Story) (H : History ℕ) (D : Decisions ℕ)
    (r : ClaimedCells.Call) (pc : Pc) : Prop :=
  ClaimedCells.Settles (h.cells g) H D (h'.cells g') r pc.answer fun D' =>
    Marks h' g' D' ∧ pc.Stands h' g' (events H r pc.answer) D' r

section Settles

variable {h h' : Heap} {g g' : Story} {H : History ℕ} {D : Decisions ℕ} {r : ClaimedCells.Call}
  {pc pc' : Pc} {c : Caller} {f : Find} {item : ℕ} {P : ℕ → Prop} {v : ℕ} {o : ClaimedCells.Op ℕ}

/-- A step that decides nothing. -/
theorem settles_of_stands (hg : Good (h.cells g) H D) (hm : Marks h g D) (ha : pc.answer = none)
    (hs : pc.Stands h g H D r) : Settles h g h g H D r pc := by
  unfold Settles
  rw [ha]
  exact settles_stay hg ⟨hm, hs⟩

/-- A step that returns with its decision. -/
theorem settles_returned (hm : Marks h' g' D) (hd : Decides (h.cells g) H D (h'.cells g') r o v) :
    Settles h g h' g' H D r (.returned v) :=
  hd.answers fun _ hclaim => ⟨hm.order hclaim, trivial⟩

/-- The call has been decided before. -/
theorem settles_decided (hg : Good (h.cells g) H D) (hm : Marks h g D)
    (hd : Decided (h.cells g) H D r o v) : Settles h g h g H D r (.returned v) :=
  hd.answers hg ⟨hm, trivial⟩

/-- A store that the cells do not show. -/
theorem Settles.of_cells (hv : h'.cells g' = h.cells g) (hs : Settles h' g' h' g' H D r pc) :
    Settles h g h' g' H D r pc := by
  unfold Settles at hs ⊢
  rw [hv] at hs ⊢
  exact hs

/-- A search in a heap with the same map. -/
theorem Search.of_cells {P' : ℕ → Prop} (hv : h'.cells g' = h.cells g) (hs : Search h g H D r f P o)
    (hP : ∀ n, (h.cells g).live n → (h.node n).key = o.key → P n → P' n) :
    Search h' g' H D r f P' o where
  running := by
    rw [hv]
    exact hs.running.imp hP
  before := hs.before.imp id fun hlt => (congrFun (congrArg View.key hv) f.pred).trans_lt hlt
  met := by
    rw [hv]
    exact hs.met

/-- A search for less. -/
theorem Search.imp {P' : ℕ → Prop} (hs : Search h g H D r f P o)
    (hP : ∀ n, (h.cells g).live n → (h.node n).key = o.key → P n → P' n) :
    Search h g H D r f P' o :=
  hs.of_cells rfl hP

/-- What the search is for lies behind the node at which it stands. -/
theorem Search.ne {n : ℕ} (hs : Search h g H D r f P o) (hn : (h.cells g).live n)
    (hk : (h.node n).key = o.key) : n ≠ f.pred := by
  rintro rfl
  rcases hs.before with h0 | hlt
  · exact hn.1 h0
  · exact hlt.ne hk

/-! ### `find_preds` returns -/

/-- An insertion that goes on with its upper levels is decided. -/
theorem stands_reloadLevel (hd : ∃ o, Decided (h.cells g) H D r o doesNotExist) (key : ℕ)
    (ins : Insert) (level i : ℕ) : (reloadLevel key ins level i).Stands h g H D r := by
  unfold reloadLevel
  split_ifs <;> exact hd

/-- It has not returned. -/
@[simp] theorem answer_reloadLevel (key : ℕ) (ins : Insert) (level i : ℕ) :
    (reloadLevel key ins level i).answer = none := by
  unfold reloadLevel
  split_ifs <;> rfl

/-- It goes on with a level. -/
theorem settles_reloadLevel (hg : Good (h.cells g) H D) (hm : Marks h g D)
    (hd : ∃ o, Decided (h.cells g) H D r o doesNotExist) (key : ℕ) (ins : Insert) (level i : ℕ) :
    Settles h g h g H D r (reloadLevel key ins level i) :=
  settles_of_stands hg hm (answer_reloadLevel ..) (stands_reloadLevel hd ..)

/-- The search is over: it has met the node with its key, or what it did not find is not there. -/
structure Outcome (h : Heap) (g : Story) (H : History ℕ) (D : Decisions ℕ)
    (r : ClaimedCells.Call) (item : Option ℕ) (P : ℕ → Prop) (o : ClaimedCells.Op ℕ) : Prop where
  running : Running (h.cells g) H D r o P
  met : ∀ i, item = some i → Met (h.cells g) H D r o.key i
  misses : item = none → ∀ n, (h.cells g).live n → (h.node n).key = o.key → ¬ P n

/-- A search that finds nothing decides a call that does nothing then. -/
theorem Outcome.settles_miss {P : ℕ → Prop} (hg : Good (h.cells g) H D) (hm : Marks h g D)
    (ho : Outcome h g H D r none P o) (hpass : o.Passive) :
    Settles h g h g H D r (.returned doesNotExist) :=
  settles_returned hm (ho.running.misses hg hpass (ho.misses rfl))

/-- A search returns to its caller. -/
theorem settles_resume {path : Path} {item : Option ℕ} (hg : Good (h.cells g) H D)
    (hm : Marks h g D) (hs : c.Stands (h.cells g) H D r fun o => ∃ P, Outcome h g H D r item P o) :
    Settles h g h g H D r (resume c path item) := by
  cases c with
  | lookup key =>
    obtain ⟨P, ho⟩ := hs
    cases item with
    | none => exact ho.settles_miss hg hm trivial
    | some i => exact settles_of_stands hg hm rfl ⟨key, ho.running.undecided, ho.met i rfl⟩
  | cas args n =>
    obtain ⟨P, ho⟩ := hs
    cases item with
    | none =>
      simp only [resume]
      split_ifs with hcond
      · exact ho.settles_miss hg hm (LinkedList.writeMode_replace.mpr hcond)
      · exact settles_of_stands hg hm rfl ⟨ho.running.proper,
          fun hmode => hcond (LinkedList.writeMode_replace.mp hmode), ho.running.undecided⟩
    | some i =>
      exact settles_of_stands hg hm rfl ⟨ho.running.proper, ho.running.undecided, ho.met i rfl⟩
  | remove key n =>
    obtain ⟨P, ho⟩ := hs
    cases item with
    | none => exact ho.settles_miss hg hm trivial
    | some i => exact settles_of_stands hg hm rfl ⟨ho.running.undecided, ho.met i rfl⟩
  | relink key newItem n level => exact settles_reloadLevel hg hm hs key _ level level
  | clean key =>
    obtain ⟨o, hd⟩ := hs
    exact settles_decided hg hm hd
  | unlinkRemoved key item val => exact settles_of_stands hg hm rfl ⟨key, hs⟩

/-- The search of a level is over: it goes on from `f.pred`, and what it has not found on the
bottom level is not there. -/
structure Ends (h : Heap) (g : Story) (H : History ℕ) (D : Decisions ℕ) (r : ClaimedCells.Call)
    (f : Find) (item : Option ℕ) (level : ℕ) (P : ℕ → Prop) (o : ClaimedCells.Op ℕ) : Prop where
  running : Running (h.cells g) H D r o P
  before : f.pred = 0 ∨ (h.node f.pred).key < o.key
  met : f.d = 0 → ∀ i, item = some i → Met (h.cells g) H D r o.key i
  below : level ≠ 0 → ∀ n, P n → h.Ahead f.pred n
  misses : level = 0 → (f.d = 0 → item = none) → ∀ n, (h.cells g).live n →
    (h.node n).key = o.key → ¬ P n

/-- A search goes down. -/
theorem settles_descend {level : ℕ} (hg : Good (h.cells g) H D) (hm : Marks h g D)
    (hs : c.Stands (h.cells g) H D r fun o => ∃ P, Ends h g H D r f f.item level P o) :
    Settles h g h g H D r (descend c f level) := by
  cases level with
  | zero =>
    refine settles_resume hg hm (hs.imp fun o _ _ ⟨P, he⟩ => ⟨P, he.running, ?_, ?_⟩)
    · intro i hi
      split_ifs at hi with hd
      exact he.met hd i hi
    · intro hi
      refine he.misses rfl fun hd => ?_
      rwa [if_pos hd] at hi
  | succ level =>
    refine settles_of_stands hg hm rfl (hs.imp fun o _ _ ⟨P, he⟩ => ?_)
    exact ⟨he.running.imp fun n _ _ => he.below (Nat.succ_ne_zero level) n, he.before, he.met⟩

/-- A level is done. -/
theorem settles_levelDone {item : Option ℕ} (hg : Good (h.cells g) H D) (hm : Marks h g D)
    (hs : c.Stands (h.cells g) H D r fun o => ∃ P, Ends h g H D r f item f.level P o) :
    Settles h g h g H D r (levelDone c f item) :=
  settles_descend hg hm (hs.imp fun _ _ _ ⟨P, he⟩ =>
    ⟨P, he.running, he.before, he.met, he.below, he.misses⟩)

/-- A search comes to a node. -/
theorem settles_visit {item : Option ℕ} (hg : Good (h.cells g) H D) (hm : Marks h g D)
    (hs : c.Stands (h.cells g) H D r (Search h g H D r f fun n =>
      h.Ahead f.pred n ∧ (f.level = 0 → ∃ i, item = some i ∧ h.Ahead i n))) :
    Settles h g h g H D r (visit c f item) := by
  cases item with
  | none =>
    refine settles_levelDone hg hm (hs.imp fun o _ _ hq => ⟨_, hq.running, hq.before, nofun,
      fun _ n hP => hP.1, fun h0 _ n _ _ hP => ?_⟩)
    obtain ⟨i, hi, -⟩ := hP.2 h0
    cases hi
  | some i =>
    refine settles_of_stands hg hm rfl (hs.imp fun o _ _ hq => hq.imp ?_)
    rintro n - - ⟨hpred, hit⟩
    refine ⟨hpred, fun h0 => ?_⟩
    obtain ⟨j, hj, hre⟩ := hit h0
    cases hj
    exact hre

/-! ### `find_preds` -/

/-- A search begins. -/
theorem settles_findStart {path : Path} (hi : Inv h.blind g) (hg : Good (h.cells g) H D)
    (hm : Marks h g D)
    (hs : c.Stands (h.cells g) H D r fun o => Running (h.cells g) H D r o fun _ => True) :
    Settles h g h g H D r (descend c ⟨0, none, 0, 0, path⟩ h.highWater) := by
  refine settles_descend hg hm (hs.imp fun o _ _ hrun => ⟨h.Ahead 0,
    hrun.imp fun n hn _ _ => hi.reaches_of_live hn, .inl rfl, nofun, fun _ _ hP => hP, fun h0 => ?_⟩)
  exact absurd h0 (Nat.one_le_iff_ne_zero.mp hi.water_pos)

/-- A search loads the first link of a level. -/
theorem settles_findPred (hg : Good (h.cells g) H D) (hm : Marks h g D)
    (hs : (Pc.findPred c f).Stands h g H D r)
    (hstep : step h (.findPred c f) .resume = some (h', pc')) : Settles h g h' g H D r pc' := by
  simp only [step] at hstep
  split_ifs at hstep with hnull hmark <;> cases hstep
  · refine settles_descend hg hm (Caller.Stands.imp hs fun o _ _ hq => ⟨_, hq.running, hq.before,
      hq.met, fun _ _ hP => hP, fun h0 _ n hn hk hP => ?_⟩)
    obtain ⟨b, hb, -⟩ := ahead_succ hP (hq.ne hn hk)
    rw [Heap.succ, ← h0, hnull.1] at hb
    cases hb
  · exact settles_of_stands hg hm rfl (Caller.Stands.imp hs fun o _ _ hq =>
      hq.running.imp fun _ _ _ _ => trivial)
  · refine settles_visit hg hm (Caller.Stands.imp hs fun o _ _ hq => hq.imp fun n hn hk hP =>
      ⟨hP, fun h0 => ?_⟩)
    obtain ⟨b, hb, hbn⟩ := ahead_succ hP (hq.ne hn hk)
    exact ⟨b, h0 ▸ hb, hbn⟩

/-- A marked node is passed. -/
theorem Toward.pass {n : ℕ} (ht : Toward h f item n) (hn : (h.cells g).live n)
    (hm : (h.next item f.level).mark = true) (h0 : f.level = 0) :
    ∃ i, (h.next item f.level).node = some i ∧ h.Ahead i n := by
  have hne : n ≠ item := by
    rintro rfl
    have hlive := hn.2.2
    rw [Heap.marked, ← h0, hm] at hlive
    cases hlive
  rw [h0]
  exact ahead_succ (ht.2 h0) hne

/-- A search loads the link of a node. -/
theorem settles_findNext (hi : Inv h.blind g) (hit : On g f.level (some item))
    (hg : Good (h.cells g) H D) (hm : Marks h g D) (hs : (Pc.findNext c f item).Stands h g H D r) :
    Settles h g h g H D r (examine c f item (h.next item f.level)) := by
  obtain ⟨hit0, hlinked⟩ := hit item rfl
  unfold examine
  split_ifs with hmark hunlink
  · exact settles_visit hg hm (Caller.Stands.imp hs fun o _ _ hq => hq.imp fun n hn _ hP =>
      ⟨hP.1, hP.pass hn hmark⟩)
  · exact settles_of_stands hg hm rfl hs
  · have hm0 : h.marked 0 item = false :=
      hi.unmarked_below hlinked (Bool.not_eq_true _ ▸ hmark) (Nat.zero_le _)
    have hl0 := hi.linked_of_le (Nat.zero_le _) hlinked
    refine settles_of_stands hg hm rfl (Caller.Stands.imp hs fun o _ _ hq =>
      ⟨hm.seen hm0, hq.imp fun n hn hk hP => ⟨hP, fun hlt => ?_, fun h0 => ?_⟩⟩)
    · -- on a level above, the bottom level leads from an unmarked node to what lies behind it
      exact hi.ahead_of_key_lt hit0 hl0 hm0 hn (hlt.trans_eq hk.symm)
    · by_cases hne : n = item
      · exact .inl hne
      · rw [h0]
        exact .inr (ahead_succ (hP.2 h0) hne)

/-- No step cuts off a live node. -/
theorem Does.ahead {t p n : ℕ} (hd : Does t h.blind g h'.blind g') (hp : g.linked p 0)
    (hn : (h'.cells g').live n) (hre : h.Ahead p n) : h'.Ahead p n :=
  hd.grows.leads p n 0 hp (hd.inv.reaches_of_live hn) hre

/-- A search unlinks a marked node. -/
theorem settles_findUnlink {next : Link} {t : ℕ} (hd : Does t h.blind g h'.blind g)
    (hi : Inv h.blind g) (hp : (Pc.findUnlink c f item next).Sound t h g)
    (hg : Good (h.cells g) H D) (hm : Marks h g D)
    (hs : (Pc.findUnlink c f item next).Stands h g H D r)
    (hstep : step h (.findUnlink c f item next) .resume = some (h', pc')) :
    Settles h g h' g H D r pc' := by
  obtain ⟨hsearch, hit, hnext, hmark⟩ := hp.safe
  have hpred := hi.linked_of_le (Nat.zero_le _) hsearch.stands.linked
  have hitem := hi.linked_of_le (Nat.zero_le _) (hit item rfl).2
  replace hnext : h.next item f.level = next := hnext
  subst hnext
  simp only [step] at hstep
  split_ifs at hstep with hcas hother <;> cases hstep
  · have hkeep : f.level = 0 → (⟨(h.next item f.level).node, false⟩ : Link).mark
        = h.marked 0 f.pred := by
      intro h0
      rw [Heap.marked, ← h0, hcas]
    have hv : (h.setNext f.pred f.level ⟨(h.next item f.level).node, false⟩).cells g = h.cells g :=
      Heap.cells_setNext hkeep
    refine .of_cells hv (settles_visit (hv ▸ hg)
      (hm.congr (Heap.marked_setNext_zero hkeep) (fun _ => Iff.rfl) rfl) ?_)
    rw [hv]
    refine Caller.Stands.imp hs fun o _ _ hq => hq.of_cells hv fun n hn _ hP => ?_
    have hn' := hn
    rw [← hv] at hn'
    refine ⟨hd.ahead hpred hn' hP.1, fun h0 => ?_⟩
    obtain ⟨b, hb, hbn⟩ := hP.pass hn hmark h0
    refine ⟨b, hb, hd.ahead ?_ hn' hbn⟩
    exact ((hi.leads 0).link item b hitem (h0 ▸ hb)).1
  · exact settles_of_stands hg hm rfl (Caller.Stands.imp hs fun o _ _ hq =>
      hq.running.imp fun _ _ _ _ => trivial)
  · refine settles_visit hg hm (Caller.Stands.imp hs fun o _ _ hq => hq.imp fun n hn hk hP =>
      ⟨hP.1, fun h0 => ?_⟩)
    obtain ⟨b, hb, hbn⟩ := ahead_succ hP.1 (hq.ne hn hk)
    exact ⟨b, h0 ▸ hb, hbn⟩

/-- A search compares keys. -/
theorem settles_findKey {next : Link} {t : ℕ} (hsound : Sound h g)
    (hp : (Pc.findKey c f item next).Sound t h g) (hg : Good (h.cells g) H D) (hm : Marks h g D)
    (hs : (Pc.findKey c f item next).Stands h g H D r)
    (hstep : step h (.findKey c f item next) .resume = some (h', pc')) :
    Settles h g h' g H D r pc' := by
  have hi := hsound.inv
  obtain ⟨hit0, hlinked⟩ := hp.safe.2.1 item rfl
  have hl0 := hi.linked_of_le (Nat.zero_le _) hlinked
  have hdiff : keyDiff (h.node item).key c.key = ((h.node item).key : ℤ) - c.key :=
    keyDiff_of_near ((hsound.small item).trans_le (Nat.le_add_left _ _))
      (hp.small.trans_le (Nat.le_add_left _ _))
  simp only [step, hdiff] at hstep
  split_ifs at hstep with hstop <;> cases hstep
  · refine settles_levelDone hg hm (Caller.Stands.imp hs fun o hk _ hq => ⟨_, hq.search.running,
      hq.search.before, fun hd i hi' => ?_, fun _ n hP => hP.1.1, fun h0 hd n hn hkn hP => ?_⟩)
    · cases hi'
      rw [hk]
      change ((h.node item).key : ℤ) - c.key = 0 at hd
      exact ⟨by simp only [Heap.cells]; omega, hm.kept hit0 hl0, hq.seen⟩
    · -- the keys grow along the bottom level, and this one is past already
      have hne : ((h.node item).key : ℤ) - c.key ≠ 0 := fun heq => by cases hd heq
      rcases hi.key_of_ahead hit0 hl0 (hP.1.2 h0) with rfl | hlt <;> omega
  · refine settles_visit hg hm (Caller.Stands.imp hs fun o hk hforce hq => ?_)
    have hlt : (h.node item).key < o.key := by
      rw [hk]
      by_contra hge
      rcases (not_lt.mp hge).eq_or_lt with heq | hgt
      · exact hstop (.inr ⟨by omega, hforce⟩)
      · exact hstop (.inl (by omega))
    refine ⟨hq.search.running.imp fun n hn hkn hP => ⟨hP.2.1 hlt, fun h0 => ?_⟩, .inr hlt,
      fun hd => ?_⟩
    · replace hkn : (h.node n).key = o.key := hkn
      refine (hP.2.2 h0).resolve_left ?_
      rintro rfl
      exact hlt.ne hkn
    · change ((h.node item).key : ℤ) - c.key = 0 at hd
      omega

/-! ### `sl_lookup` and `sl_cas` -/

/-- `sl_lookup` loads the value. -/
theorem settles_lookupVal (hg : Good (h.cells g) H D) (hm : Marks h g D)
    (hs : (Pc.lookupVal item).Stands h g H D r) :
    Settles h g h g H D r (.returned (h.node item).val) := by
  obtain ⟨key, hu, hmet⟩ := hs
  exact settles_returned hm (hmet.gets hg hu)

variable {args : Cas} {ins : Insert}

/-- The levels of the new node are drawn. -/
theorem settles_casRandom {z : ℕ} (hg : Good (h.cells g) H D) (hm : Marks h g D)
    (hs : (Pc.casRandom args).Stands h g H D r)
    (hstep : step h (.casRandom args) (.rand z) = some (h', pc')) :
    Settles h g h' g H D r pc' := by
  simp only [step] at hstep
  split_ifs at hstep <;> cases hstep
  · exact settles_of_stands hg hm rfl hs
  · exact settles_of_stands hg hm rfl hs

/-- `high_water` is raised. -/
theorem settles_casHighWater {levels : ℕ} (hg : Good (h.cells g) H D) (hm : Marks h g D)
    (hs : (Pc.casHighWater args levels).Stands h g H D r)
    (hstep : step h (.casHighWater args levels) .resume = some (h', pc')) :
    Settles h g h' g H D r pc' := by
  simp only [step] at hstep
  split_ifs at hstep <;> cases hstep
  · exact settles_of_stands hg hm rfl hs
  · exact settles_of_stands hg hm rfl hs

/-- `update_item` loads the value. -/
theorem settles_casVal (hg : Good (h.cells g) H D) (hm : Marks h g D)
    (hs : (Pc.casVal args item).Stands h g H D r)
    (hstep : step h (.casVal args item) .resume = some (h', pc')) :
    Settles h g h' g H D r pc' := by
  obtain ⟨hok, hu, hmet⟩ := hs
  simp only [step] at hstep
  split_ifs at hstep with hold hadd <;> cases hstep
  · exact settles_of_stands hg hm rfl
      (Met.again (o := args.onMap) hmet hu hok (hmet.claimed hg hold) fun _ => True)
  · exact settles_returned hm (Met.reads (o := args.onMap) hg hmet hu
      (LinkedList.writeMode_add.mpr hadd) hold)
  · exact settles_of_stands hg hm rfl
      ⟨hok, fun hmode => hadd (LinkedList.writeMode_add.mp hmode), hold, hu, hmet⟩

/-- The CAS on the value. -/
theorem settles_casUpdate {old : ℕ} (hg : Good (h.cells g) H D) (hm : Marks h g D)
    (hs : (Pc.casUpdate args item old).Stands h g H D r)
    (hstep : step h (.casUpdate args item old) .resume = some (h', pc')) :
    Settles h g h' g H D r pc' := by
  obtain ⟨hok, hmode, hold, hu, hmet⟩ := hs
  simp only [step] at hstep
  split_ifs at hstep with hval <;> cases hstep
  · subst hval
    refine settles_returned (hm.congr (fun b => ?_) (fun _ => Iff.rfl) rfl) (o := args.onMap) ?_
    · rw [Heap.marked, Heap.next_setVal]
      rfl
    · rw [Heap.cells_setVal]
      exact hmet.updates hg hu hmode hok hold
  · exact settles_of_stands hg hm rfl ⟨hok, hu, hmet⟩

/-- The new node is allocated. -/
theorem settles_casAlloc {n : ℕ} {path : Path} (hi : Inv h.blind g) (hg : Good (h.cells g) H D)
    (hm : Marks h g D) (hs : (Pc.casAlloc args n path).Stands h g H D r) (owner : ℕ → ℕ) :
    Settles h g (h.alloc args n path.succs) { g with owner := owner } H D r
      (.casBottom args ⟨h.brk, n, path⟩) := by
  obtain ⟨hok, hmode, hu⟩ := hs
  have hold : ∀ b, g.linked b 0 → (h.alloc args n path.succs).node b = h.node b := fun b hb =>
    h.node_alloc_of_ne (hi.lt_brk hb).ne
  have hmark : ∀ b, g.linked b 0 → (h.alloc args n path.succs).marked 0 b = h.marked 0 b := by
    intro b hb
    rw [Heap.marked, Heap.next, hold b hb]
    rfl
  obtain ⟨hg', hrely⟩ : Good ((h.alloc args n path.succs).cells { g with owner := owner }) H D
      ∧ ∀ u, ClaimedCells.Rely u (h.cells g) H D
        ((h.alloc args n path.succs).cells { g with owner := owner }) H D := hg.congr
    (fun b => and_congr_right fun _ => and_congr_right fun hb => by rw [hmark b hb])
    (fun b hb => congrArg Node.key (hold b (hm.linked hb).2))
    fun b hb => congrArg Node.val (hold b (hm.linked hb).2)
  refine ⟨D, hg', ⟨fun b => (hm b).trans (and_congr_right fun _ => and_congr_right fun hb => ?_),
    hok, hmode, hu, ?_⟩, fun u _ => hrely u⟩
  · rw [hmark b hb]
  · rw [h.node_alloc_brk]

/-- An insertion that links its upper levels is decided. -/
theorem stands_linkLevel (hd : ∃ o, Decided (h.cells g) H D r o doesNotExist) (key : ℕ)
    (ins : Insert) (level : ℕ) : (linkLevel key ins level).Stands h g H D r := by
  unfold linkLevel
  split_ifs <;> exact hd

/-- It has not returned. -/
@[simp] theorem answer_linkLevel (key : ℕ) (ins : Insert) (level : ℕ) :
    (linkLevel key ins level).answer = none := by
  unfold linkLevel
  split_ifs <;> rfl

/-- **The CAS at the bottom** decides an insertion. -/
theorem settles_casBottom {t : ℕ} (hi : Inv h.blind g) (hp : (Pc.casBottom args ins).Sound t h g)
    (hg : Good (h.cells g) H D) (hm : Marks h g D) (hs : (Pc.casBottom args ins).Stands h g H D r)
    (hstep : step h (.casBottom args ins) .resume = some (h', pc')) :
    Settles h g h' (g.after t h.blind (Pc.casBottom args ins).blind .resume) H D r pc' := by
  obtain ⟨hok, hmode, hu, hval⟩ := hs
  obtain ⟨hb, hnext, hentry⟩ := hp.safe
  have hheight : 0 < ins.n := hp.leveled.1
  have hnl : ¬ g.linked ins.newItem 0 := fun hl => Nat.not_lt_zero _ ((hb.linked 0).mp hl)
  have hfresh : h.marked 0 ins.newItem = false := congrArg Link.mark (hnext 0)
  obtain ⟨hlinked, hbefore, hbehind⟩ := hentry 0 hheight
  simp only [step] at hstep
  by_cases hcas : h.next (ins.path.preds 0) 0 = ⟨ins.path.succs 0, false⟩
  · rw [show g.after t h.blind (Pc.casBottom args ins).blind .resume = g.link ins.newItem 0 from
      if_pos hcas]
    rw [if_pos hcas] at hstep
    cases hstep
    set p := ins.path.preds 0
    have hkeep : (0 : ℕ) = 0 → (⟨some ins.newItem, false⟩ : Link).mark = h.marked 0 p := by
      intro _
      rw [Heap.marked, hcas]
    have hfree : D.claim ins.newItem = none := by
      by_contra hc
      exact hnl ((hm ins.newItem).mp hc).2.1
    have hmark : (h.setNext p 0 ⟨some ins.newItem, false⟩).marked 0 ins.newItem = false :=
      (Heap.marked_setNext_zero hkeep _).trans hfresh
    have hd : Decides (h.cells g) H D ((h.setNext p 0 ⟨some ins.newItem, false⟩).cells
        (g.link ins.newItem 0)) r args.onMap 0 := by
      rw [Heap.cells_link hb.ne_zero hmark, Heap.cells_setNext hkeep]
      refine hg.insert hu hmode hok hfree hb.key_eq hval fun x hx => ?_
      refine hi.absent hlinked hbefore hcas (fun b hbs => ?_) hx
      obtain ⟨hb0, hbl, hle, htie⟩ := hbehind b hbs
      exact ⟨hb0, hbl, lt_of_le_of_ne hle fun heq => (htie heq.symm).1 rfl⟩
    unfold Settles
    rw [answer_linkLevel]
    refine hd.settles fun D' hclaim hdec => ⟨?_, stands_linkLevel ⟨_, hdec⟩ args.key ins 1⟩
    exact (hm.congr (Heap.marked_setNext_zero hkeep) (fun _ => Iff.rfl) hclaim).link hmark rfl
  · rw [show g.after t h.blind (Pc.casBottom args ins).blind .resume = g from if_neg hcas]
    rw [if_neg hcas] at hstep
    cases hstep
    exact settles_of_stands hg hm rfl ⟨hok, hu, fun hpass => absurd hpass hmode⟩

/-- What `sl_cas` does on the levels above the bottom level does not show in the cells. -/
theorem settles_above {level : ℕ} {p : Link} (hg : Good (h.cells g) H D) (hm : Marks h g D)
    (hlevel : level ≠ 0) (hlinked : ∀ b, g'.linked b 0 ↔ g.linked b 0) (a : ℕ)
    (hd : ∃ o, Decided (h.cells g) H D r o doesNotExist) (ha : pc.answer = none)
    (hs : ∀ h' g', (∃ o, Decided (h'.cells g') H D r o doesNotExist) → pc.Stands h' g' H D r) :
    Settles h g (h.setNext a level p) g' H D r pc := by
  have hv : (h.setNext a level p).cells g' = h.cells g :=
    Heap.cells_congr (h.key_setNext a level p) (h.val_setNext a level p)
      (Heap.marked_setNext_zero fun h0 => absurd h0 hlevel) hlinked
  refine .of_cells hv (settles_of_stands (hv ▸ hg) ?_ ha (hs _ _ (hv ▸ hd)))
  exact hm.congr (Heap.marked_setNext_zero fun h0 => absurd h0 hlevel) hlinked rfl

/-- The CAS at an upper level. -/
theorem settles_casLink {t key level : ℕ} (hp : (Pc.casLink key ins level).Sound t h g)
    (hg : Good (h.cells g) H D) (hm : Marks h g D)
    (hs : (Pc.casLink key ins level).Stands h g H D r)
    (hstep : step h (.casLink key ins level) .resume = some (h', pc')) :
    Settles h g h' (g.after t h.blind (Pc.casLink key ins level).blind .resume) H D r pc' := by
  have hpos : level ≠ 0 := Nat.pos_iff_ne_zero.mp hp.safe.2.1
  simp only [step] at hstep
  by_cases hcas : h.next (ins.path.preds level) level = ⟨ins.path.succs level, false⟩
  · rw [show g.after t h.blind (Pc.casLink key ins level).blind .resume = g.link ins.newItem level
      from if_pos hcas]
    rw [if_pos hcas] at hstep
    cases hstep
    refine settles_above hg hm hpos (fun b => ?_) _ hs (answer_linkLevel ..)
      fun h' g' hd => stands_linkLevel hd key ins (level + 1)
    exact or_iff_left fun heq => hpos heq.2.symm
  · rw [show g.after t h.blind (Pc.casLink key ins level).blind .resume = g from if_neg hcas]
    rw [if_neg hcas] at hstep
    cases hstep
    exact settles_of_stands hg hm rfl hs

/-- The link of the new node is loaded. -/
theorem settles_casReload {key level i : ℕ} (hg : Good (h.cells g) H D) (hm : Marks h g D)
    (hs : (Pc.casReload key ins level i).Stands h g H D r)
    (hstep : step h (.casReload key ins level i) .resume = some (h', pc')) :
    Settles h g h' g H D r pc' := by
  simp only [step] at hstep
  split_ifs at hstep <;> cases hstep
  · exact settles_reloadLevel hg hm hs key ins level (i + 1)
  · exact settles_of_stands hg hm rfl hs

/-- The link of the new node is stored. -/
theorem settles_casStore {t key level i : ℕ} {old : Link}
    (hp : (Pc.casStore key ins level i old).Sound t h g) (hg : Good (h.cells g) H D)
    (hm : Marks h g D) (hs : (Pc.casStore key ins level i old).Stands h g H D r)
    (hstep : step h (.casStore key ins level i old) .resume = some (h', pc')) :
    Settles h g h' (g.after t h.blind (Pc.casStore key ins level i old).blind .resume) H D r pc' := by
  have hpos : i ≠ 0 := Nat.pos_iff_ne_zero.mp (hp.safe.1.pos.trans_le hp.safe.1.le)
  have hlinked : ∀ b, (g.after t h.blind (Pc.casStore key ins level i old).blind .resume).linked b 0
      ↔ g.linked b 0 := by
    intro b
    simp only [Story.after, Pc.blind]
    split_ifs <;> rfl
  have hstore : ∀ pc : Pc, pc.answer = none →
      (∀ h' g', (∃ o, Decided (h'.cells g') H D r o doesNotExist) → pc.Stands h' g' H D r) →
      Settles h g (if h.next ins.newItem i = old then
        h.setNext ins.newItem i ⟨ins.path.succs i, false⟩ else h)
        (g.after t h.blind (Pc.casStore key ins level i old).blind .resume) H D r pc := by
    intro pc ha hst
    split_ifs
    · exact settles_above hg hm hpos hlinked _ hs ha hst
    · have hv := Heap.cells_congr (h := h) (fun _ => rfl) (fun _ => rfl) (fun _ => rfl) hlinked
      exact .of_cells hv (settles_of_stands (hv ▸ hg) (hm.congr (fun _ => rfl) hlinked rfl) ha
        (hst _ _ (hv ▸ hs)))
  simp only [step] at hstep
  by_cases hmark : (h.next ins.newItem i).mark = true
  · rw [if_pos hmark] at hstep
    cases hstep
    exact hstore _ rfl fun _ _ hd => hd
  · rw [if_neg hmark] at hstep
    cases hstep
    exact hstore _ (answer_reloadLevel ..) fun _ _ hd => stands_reloadLevel hd key ins level (i + 1)

/-- The bottom link of the new node is looked at for a mark. -/
theorem settles_casCheck {key : ℕ} (hg : Good (h.cells g) H D) (hm : Marks h g D)
    (hs : (Pc.casCheck key ins).Stands h g H D r)
    (hstep : step h (.casCheck key ins) .resume = some (h', pc')) :
    Settles h g h' g H D r pc' := by
  simp only [step] at hstep
  split_ifs at hstep <;> cases hstep
  · exact settles_of_stands hg hm rfl hs
  · obtain ⟨o, hd⟩ := hs
    exact settles_decided hg hm hd

/-! ### `sl_remove` -/

/-- A removal that marks the upper levels is not decided. -/
theorem stands_markLevel {key level : ℕ} (hlevel : level ≠ 0) (hu : Undecided H D r (.remove key))
    (hmet : Met (h.cells g) H D r key item) : (markLevel key item level).Stands h g H D r := by
  cases level with
  | zero => exact absurd rfl hlevel
  | succ level => exact ⟨hu, hmet⟩

/-- It has not returned. -/
@[simp] theorem answer_markLevel (key item level : ℕ) : (markLevel key item level).answer = none := by
  cases level <;> rfl

/-- A removal loads the number of levels. -/
theorem settles_removeLevels {key : ℕ} (hi : Inv h.blind g) (hg : Good (h.cells g) H D)
    (hm : Marks h g D) (hs : (Pc.removeLevels key item).Stands h g H D r) :
    Settles h g h g H D r (markLevel key item (h.node item).numLevels) := by
  obtain ⟨hu, hmet⟩ := hs
  obtain ⟨h0, hlinked⟩ := hm.linked hmet.kept
  have hlevels : 0 < (h.node item).numLevels := (hi.linked_lt item 0 hlinked h0).2
  exact settles_of_stands hg hm (answer_markLevel ..) (stands_markLevel hlevels.ne' hu hmet)

/-- A mark above the bottom level does not show in the cells. -/
theorem settles_markAbove {key level : ℕ} (hg : Good (h.cells g) H D) (hm : Marks h g D)
    (hs : (Pc.removeLevels key item).Stands h g H D r) (hlevel : level ≠ 0)
    (hv : h'.cells g = h.cells g) (hmark : ∀ b, h'.marked 0 b = h.marked 0 b) :
    Settles h g h' g H D r (markLevel key item level) := by
  obtain ⟨hu, hmet⟩ := hs
  refine .of_cells hv (settles_of_stands (hv ▸ hg) (hm.congr hmark (fun _ => Iff.rfl) rfl)
    (answer_markLevel ..) (stands_markLevel hlevel hu (hv ▸ hmet)))

/-- **The mark at the bottom** claims the node. -/
theorem settles_removeMark {key level : ℕ} {next : Link} (hg : Good (h.cells g) H D)
    (hm : Marks h g D) (hs : (Pc.removeMark key item level next).Stands h g H D r)
    (hstep : step h (.removeMark key item level next) .resume = some (h', pc')) :
    Settles h g h' g H D r pc' := by
  obtain ⟨hu, hmet⟩ := hs
  obtain ⟨h0, hlinked⟩ := hm.linked hmet.kept
  simp only [step] at hstep
  by_cases hmark : (h.next item level).mark = true
  · -- the level was marked before, so that the store changes nothing
    have hsame : (level = 0 → (⟨next.node, true⟩ : Link).mark = h.marked 0 item) := by
      rintro rfl
      exact hmark.symm
    have hv : (if h.next item level = next then h.setNext item level ⟨next.node, true⟩ else h).cells g
        = h.cells g := by
      split_ifs
      · exact Heap.cells_setNext hsame
      · rfl
    have hmarks : ∀ b, (if h.next item level = next then
        h.setNext item level ⟨next.node, true⟩ else h).marked 0 b = h.marked 0 b := by
      intro b
      split_ifs
      · exact Heap.marked_setNext_zero hsame b
      · rfl
    rw [if_pos hmark] at hstep
    by_cases hlevel : level = 0
    · rw [if_pos hlevel] at hstep
      cases hstep
      subst hlevel
      refine settles_returned (hm.congr hmarks (fun _ => Iff.rfl) rfl) (o := .remove key) ?_
      rw [hv]
      exact hmet.misses (o := .remove key) hg hu trivial ((hm item).mpr ⟨h0, hlinked, hmark⟩)
    · rw [if_neg hlevel] at hstep
      cases hstep
      exact settles_markAbove hg hm ⟨hu, hmet⟩ hlevel hv hmarks
  · rw [if_neg hmark] at hstep
    by_cases hcas : h.next item level = next
    · rw [if_pos hcas, if_pos hcas] at hstep
      cases hstep
      subst hcas
      by_cases hlevel : level = 0
      · subst hlevel
        have hlive : (h.cells g).live item := ⟨h0, hlinked, Bool.not_eq_true _ ▸ hmark⟩
        have hkey : (h.cells g).key item = key := hmet.key_eq
        rw [← hkey] at hu
        obtain ⟨D', hg', hclaim, hrely⟩ := hg.claim hu hlive
        rw [← Heap.cells_mark (o := ⟨(h.next item 0).node, true⟩) rfl] at hg' hrely
        refine ⟨D', hg', ⟨hm.claim h0 hlinked rfl hclaim, ?_, ?_, ?_⟩, hrely⟩
        · rw [hclaim, Function.update_self]
        · rw [Heap.val_setNext]
          exact hg.filled item hlive
        · rw [Heap.key_setNext]
          exact hkey
      · exact settles_markAbove hg hm ⟨hu, hmet⟩ hlevel
          (Heap.cells_setNext fun h0 => absurd h0 hlevel)
          (Heap.marked_setNext_zero fun h0 => absurd h0 hlevel)
    · rw [if_neg hcas, if_neg hcas] at hstep
      cases hstep
      exact settles_of_stands hg hm rfl ⟨hu, hmet⟩

/-- **The swap of the value** decides a removal. -/
theorem settles_removeSwap {key : ℕ} (hg : Good (h.cells g) H D) (hm : Marks h g D)
    (hs : (Pc.removeSwap key item).Stands h g H D r) :
    Settles h g (h.setVal item doesNotExist) g H D r
      (search (.unlinkRemoved key item (h.node item).val)) := by
  obtain ⟨hc, hv, rfl⟩ := hs
  have hd := hg.empty hc hv
  rw [show (0 : ℕ) = doesNotExist from rfl, ← Heap.cells_setVal] at hd
  refine hd.settles fun D' hclaim hdec => ⟨hm.congr (fun b => ?_) (fun _ => Iff.rfl) hclaim, hdec⟩
  rw [Heap.marked, Heap.next_setVal]
  rfl

end Settles

end SkipList
