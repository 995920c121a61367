/-
# The list is linearizable

Every step of a thread fits into the order of the calls: the linking CAS, the marking CAS and
the CAS of a value decide the call they belong to; a search that ends in front of its place
decides a call that finds nothing.

* `Settles` — there is an order for the step;
* `settles_step` — one case for each step of the functions;
* `list_linearizable` — the history of every run is that of a map.
-/
import Ssr.ListHistory

open Interleaving Map Linearizability ClaimedCells

namespace LinkedList

/-! ## Stores and the cells -/

/-- The nodes that were claimed are those that are marked. -/
def Marks (h : Heap) (D : Decisions ℕ) : Prop :=
  ∀ n, D.claim n ≠ none ↔ n ∈ h.linked ∧ (h.node n).next.mark = true

section View

variable {h : Heap} {D : Decisions ℕ} {t p i n v : ℕ} {l : Option ℕ}

/-- A store that leaves the mark as it is. -/
theorem Heap.setNext_mark_of_eq {o : Link} (ho : o.mark = (h.node p).next.mark) (a : ℕ) :
    ((h.setNext p o).node a).next.mark = (h.node a).next.mark := by
  by_cases ha : a = p
  · rw [ha, h.setNext_next_self, ho]
  · rw [h.setNext_next_of_ne ha]

/-- A store into a link leaves the values as they were. -/
theorem Heap.setNext_val (o : Link) (a : ℕ) : ((h.setNext p o).node a).val = (h.node a).val := by
  by_cases ha : a = p
  · subst ha
    simp [Heap.setNext]
  · simp [Heap.setNext, ha]

/-- Unlinking a marked node leaves the map as it is. -/
theorem Heap.cells_unlink (hcas : (h.node p).next = ⟨some i, false⟩) :
    (h.unlink t p i l).cells = h.cells := by
  have hm := h.setNext_mark_of_eq (p := p) (o := ⟨l, false⟩) (by rw [hcas])
  ext a
  · exact h.setNext_key p a _
  · exact h.setNext_val _ a
  · change a ∈ h.linked ∧ ((h.setNext p ⟨l, false⟩).node a).next.mark = false ↔ _
    rw [hm a]
    rfl

/-- A node that is linked comes into the map. -/
theorem Heap.cells_link (hm : (h.node p).next.mark = false) (hn : (h.node n).next.mark = false) :
    (h.link p n).cells = { h.cells with live := fun x => h.cells.live x ∨ x = n } := by
  have hmark := h.setNext_mark_of_eq (p := p) (o := ⟨some n, false⟩) hm.symm
  ext a
  · exact h.setNext_key p a _
  · exact h.setNext_val _ a
  · change a ∈ h.linked ++ [n] ∧ ((h.setNext p ⟨some n, false⟩).node a).next.mark = false ↔
      (a ∈ h.linked ∧ (h.node a).next.mark = false) ∨ a = n
    rw [hmark a, List.mem_append, List.mem_singleton]
    constructor
    · rintro ⟨ha | ha, hma⟩
      · exact .inl ⟨ha, hma⟩
      · exact .inr ha
    · rintro (⟨ha, hma⟩ | rfl)
      · exact ⟨.inl ha, hma⟩
      · exact ⟨.inr rfl, hn⟩

/-- A store of a value. -/
theorem Heap.cells_setVal :
    (h.setVal n v).cells = { h.cells with val := Function.update h.cells.val n v } := by
  ext a
  · exact h.setVal_key n a v
  · change ((h.setVal n v).node a).val = Function.update h.cells.val n v a
    by_cases ha : a = n
    · subst ha
      simp [Heap.setVal]
    · simp [Heap.setVal, ha, Heap.cells]
  · change a ∈ h.linked ∧ ((h.setVal n v).node a).next.mark = false ↔ _
    rw [h.setVal_next]
    rfl

/-- A node that is marked goes out of the map. -/
theorem Heap.cells_mark {o : Link} (ho : o.mark = true) :
    (h.setNext n o).cells = { h.cells with live := fun x => h.cells.live x ∧ x ≠ n } := by
  ext a
  · exact h.setNext_key n a _
  · exact h.setNext_val _ a
  · change a ∈ h.linked ∧ ((h.setNext n o).node a).next.mark = false ↔
      (a ∈ h.linked ∧ (h.node a).next.mark = false) ∧ a ≠ n
    by_cases ha : a = n
    · rw [ha, h.setNext_next_self, ho]
      simp
    · rw [h.setNext_next_of_ne ha]
      simp [ha]

/-- A store that leaves the mark as it is leaves the map. -/
theorem Heap.cells_marked {o : Link} (ho : o.mark = (h.node n).next.mark) :
    (h.setNext n o).cells = h.cells := by
  ext a
  · exact h.setNext_key n a _
  · exact h.setNext_val _ a
  · change a ∈ h.linked ∧ ((h.setNext n o).node a).next.mark = false ↔ _
    rw [h.setNext_mark_of_eq ho]
    rfl

/-- It leaves the claims as well. -/
theorem Marks.setNext {o : Link} (hm : Marks h D) (ho : o.mark = (h.node p).next.mark) :
    Marks (h.setNext p o) D := by
  intro a
  rw [hm a, h.setNext_mark_of_eq ho]
  rfl

/-- A new node is not marked. -/
theorem Marks.link (hm : Marks h D) (hp : (h.node p).next.mark = false)
    (hn : (h.node n).next.mark = false) : Marks (h.link p n) D := by
  have hmark := h.setNext_mark_of_eq (p := p) (o := ⟨some n, false⟩) hp.symm
  intro a
  change _ ↔ a ∈ h.linked ++ [n] ∧ ((h.setNext p ⟨some n, false⟩).node a).next.mark = true
  rw [hm a, hmark a, List.mem_append, List.mem_singleton]
  constructor
  · exact fun h' => ⟨.inl h'.1, h'.2⟩
  · rintro ⟨ha | rfl, hma⟩
    · exact ⟨ha, hma⟩
    · rw [hn] at hma
      cases hma

/-- A store of a value marks nothing. -/
theorem Marks.setVal (hm : Marks h D) (a v : ℕ) : Marks (h.setVal a v) D := by
  intro b
  rw [hm b, h.setVal_next]
  rfl

/-- The thread that marks a node has a claim on it. -/
theorem Marks.claim {D' : Decisions ℕ} {r : ClaimedCells.Call} {o : Link} (hm : Marks h D)
    (hn : n ∈ h.linked) (ho : o.mark = true) (hc : D'.claim = Function.update D.claim n (some r)) :
    Marks (h.setNext n o) D' := by
  intro a
  change _ ↔ a ∈ h.linked ∧ _
  rw [hc]
  by_cases ha : a = n
  · rw [ha, h.setNext_next_self, Function.update_self]
    simp [hn, ho]
  · rw [Function.update_of_ne ha, h.setNext_next_of_ne ha]
    exact hm a

end View

/-! ## Where a step leads -/

/-- There is an order for a step of call `r` from `h` to `h'` that comes to `pc`. -/
def Settles (h h' : Heap) (H : History ℕ) (D : Decisions ℕ) (r : ClaimedCells.Call) (pc : Pc) :
    Prop :=
  ClaimedCells.Settles h.cells H D h'.cells r pc.answer fun D' =>
    Marks h' D' ∧ pc.Stands h' (events H r pc.answer) D' r

section Settles

variable {h h' : Heap} {H : History ℕ} {D : Decisions ℕ} {r : ClaimedCells.Call} {pc : Pc} {op : Op}
  {pred item : ℕ} {o : ClaimedCells.Op ℕ} {P : ℕ → Prop} {v : ℕ}

/-- A step that decides nothing. -/
theorem settles_of_stands (hg : Good h.cells H D) (hm : Marks h D) (ha : pc.answer = none)
    (hs : pc.Stands h H D r) : Settles h h H D r pc := by
  unfold Settles
  rw [ha]
  exact settles_stay hg ⟨hm, hs⟩

/-- A step that returns with its decision. -/
theorem settles_returned (hm : Marks h' D) (hd : Decides h.cells H D h'.cells r o v) :
    Settles h h' H D r (.returned v) :=
  hd.answers fun _ hclaim => ⟨fun n => by rw [hclaim]; exact hm n, trivial⟩

/-- The call has been decided before. -/
theorem settles_decided (hg : Good h.cells H D) (hm : Marks h D)
    (hd : Decided h.cells H D r o v) : Settles h h H D r (.returned v) :=
  hd.answers hg ⟨hm, trivial⟩

/-- A store that the cells do not show. -/
theorem Settles.of_cells (hv : h'.cells = h.cells) (hs : Settles h' h' H D r pc) :
    Settles h h' H D r pc := by
  unfold Settles at hs ⊢
  rw [hv] at hs ⊢
  exact hs

/-- The search ends in front of the place of its key. -/
theorem settles_notFound (hg : Good h.cells H D) (hm : Marks h D)
    (hrun : Running h.cells H D r op.onMap P)
    (hP : ∀ n, h.cells.live n → (h.node n).key = op.key → ¬ P n) (pred : ℕ) (item : Option ℕ) :
    Settles h h H D r (notFound op pred item) := by
  have hmiss : op.onMap.Passive → Settles h h H D r (.returned doesNotExist) := fun hpass =>
    settles_returned hm (hrun.misses hg hpass fun n hl hk => hP n hl (hk.trans op.onMap_key))
  cases op with
  | lookup key => exact hmiss trivial
  | remove key => exact hmiss trivial
  | cas key expectation new =>
    simp only [notFound]
    split_ifs with hcond
    · exact hmiss (writeMode_replace.mpr hcond)
    · exact settles_of_stands hg hm rfl
        ⟨expectation, rfl, fun h' => hcond (writeMode_replace.mp h'), hrun.proper, hrun.undecided⟩

/-- The search has found a node with its key. -/
theorem settles_found (hg : Good h.cells H D) (hm : Marks h D)
    (hrun : Running h.cells H D r op.onMap P) (hmet : Met h.cells H D r op.key item) (pred : ℕ) :
    Settles h h H D r (found op pred item) := by
  cases op with
  | lookup key => exact settles_of_stands hg hm rfl ⟨key, hrun.undecided, hmet⟩
  | cas key expectation new =>
    exact settles_of_stands hg hm rfl ⟨rfl, hrun.proper, hrun.undecided, hmet⟩
  | remove key => exact settles_of_stands hg hm rfl ⟨key, hrun.undecided, hmet⟩

/-- A search comes to a node. -/
theorem settles_visit {item : Option ℕ} (hg : Good h.cells H D) (hm : Marks h D)
    (hrun : Running h.cells H D r op.onMap fun n => ∃ i, item = some i ∧ Leads h pred i n) :
    Settles h h H D r (visit op pred item) := by
  cases item with
  | none =>
    refine settles_notFound hg hm hrun ?_ pred none
    rintro n - - ⟨i, hi, -⟩
    cases hi
  | some i =>
    refine settles_of_stands hg hm rfl (hrun.imp ?_)
    rintro n - - ⟨j, hj, hl⟩
    cases hj
    exact hl

/-- A search has loaded the link of a node. -/
theorem settles_examine {next : Link} (hg : Good h.cells H D) (hm : Marks h D)
    (hrun : Running h.cells H D r op.onMap fun n =>
      Leads h pred item n ∧ (next.mark = false → Past h item next n))
    (hmark : next.mark = true → (h.node item).next.mark = true)
    (hseen : next.mark = false → Seen H D r item) :
    Settles h h H D r (examine op pred item next) := by
  unfold examine
  split_ifs with hn hhelps
  · exact settles_of_stands hg hm rfl (hrun.imp fun n _ _ hP => hP.1)
  · exact settles_of_stands hg hm rfl ⟨hmark hn, hrun.imp fun n _ _ hP => hP.1⟩
  · rw [Bool.not_eq_true] at hn
    exact settles_of_stands hg hm rfl ⟨hn, hseen hn, hrun.imp fun n _ _ hP => ⟨hP.1, hP.2 hn⟩⟩

/-- What a call knows does not change with a store that the cells do not show. -/
theorem running_of_cells {P' : ℕ → Prop} (hv : h'.cells = h.cells)
    (hrun : Running h.cells H D r op.onMap P)
    (hP : ∀ n, h.cells.live n → (h.node n).key = op.key → P n → P' n) :
    Running h'.cells H D r op.onMap P' := by
  rw [hv]
  exact hrun.imp fun n hl hk => hP n hl (hk.trans op.onMap_key)

/-- A node that was in the list is live or claimed. -/
theorem Marks.kept (hm : Marks h D) (hit : item ∈ h.linked) :
    h.cells.live item ∨ D.claim item ≠ none := by
  cases hmark : (h.node item).next.mark with
  | true => exact .inr ((hm item).mpr ⟨hit, hmark⟩)
  | false => exact .inl ⟨hit, hmark⟩

/-- A node of the map, or with a claim on it, was linked. -/
theorem Marks.linked (hm : Marks h D) (hit : h.cells.live item ∨ D.claim item ≠ none) :
    item ∈ h.linked :=
  hit.elim (fun hl => hl.1) fun hc => ((hm item).mp hc).1

/-- A node that is met unmarked has not been claimed. -/
theorem Marks.seen (hm : Marks h D) (hmark : (h.node item).next.mark = false) :
    Seen H D r item := by
  intro c hc
  have hclaimed := (hm item).mp (by simp [hc])
  rw [hmark] at hclaimed
  cases hclaimed.2

end Settles

/-! ## Where live nodes are -/

section Reach

variable {h : Heap} {D : Decisions ℕ} {op : Op} {t p i n a pred item : ℕ} {l : Option ℕ}

/-- A node of the map is reached from the head. -/
theorem Inv.reachable_of_live (hi : Inv h) (hn : h.cells.live n) : h.Reachable n :=
  hi.unmarked_reachable n hn.1 hn.2

/-- The head is not in the map. -/
theorem Inv.ne_zero_of_live (hi : Inv h) (hn : h.cells.live n) : n ≠ 0 :=
  (hi.linked_lt n hn.1).1

/-- The way to a node goes through the successor. -/
theorem reach_succ (hre : Chain.Reach h.succ a n) (hne : n ≠ a) :
    ∃ b, h.succ a = some b ∧ Chain.Reach h.succ b n :=
  hre.cases_head.resolve_left hne.symm

/-- The node at which a search for its key stands lies behind `pred`. -/
theorem Place.ne (hi : Inv h) (hp : Place h op.key pred) (hn : h.cells.live n)
    (hk : (h.node n).key = op.key) : n ≠ pred := by
  rintro rfl
  rcases hp.2.2 with h0 | hlt
  · exact hi.ne_zero_of_live hn h0
  · omega

/-- An unlinking CAS cuts off only the node it is for. -/
theorem reach_unlink (hcas : (h.node p).next = ⟨some i, false⟩) (hl : h.succ i = l) (hip : i ≠ p)
    (hn : n ≠ i) (hre : Chain.Reach h.succ a n) :
    Chain.Reach (h.unlink t p i l).succ a n := by
  refine hre.bypass (congrArg Link.node hcas) hip (fun y => ?_) hn
  rw [show (h.unlink t p i l).succ = Function.update h.succ p l from h.setNext_succ p _,
    Function.update_apply, hl]

/-- Between two nodes that follow one another there is no key. -/
theorem Inv.absent (hi : Inv h) {key : ℕ} {next : Option ℕ} (hp : h.Linked p)
    (hlt : p = 0 ∨ (h.node p).key < key) (hnext : (h.node p).next = ⟨next, false⟩)
    (hgt : ∀ b, next = some b → key < (h.node b).key) (hn : h.cells.live n) :
    (h.node n).key ≠ key := by
  rintro rfl
  have hpr : h.Reachable p := hi.reachable_of_unmarked hp (by rw [hnext])
  have hn0 := hi.ne_zero_of_live hn
  rcases hpr.total (hi.reachable_of_live hn) with hre | hre
  · rcases hre.cases_head with rfl | ⟨b, hb, hre⟩
    · exact hlt.elim hn0 (lt_irrefl _)
    · have hbn := hgt b (by rw [← hb, Heap.succ, hnext])
      rcases hre.eq_or_lt hi.sorted with rfl | ⟨-, hb0 | hlt'⟩
      · exact lt_irrefl _ hbn
      · exact (hi.linked_lt b (hi.link_linked p b hb)).1 hb0
      · exact lt_asymm hbn hlt'
  · rcases hre.eq_or_lt hi.sorted with rfl | ⟨hp0, hn0' | hlt'⟩
    · exact hlt.elim hn0 (lt_irrefl _)
    · exact hn0 hn0'
    · exact hlt.elim hp0 (lt_asymm hlt')

end Reach

/-! ## The steps -/

section Step

variable {h h' : Heap} {H : History ℕ} {D : Decisions ℕ} {r : ClaimedCells.Call} {pc' : Pc} {op : Op}
  {pred item : ℕ} {next : Link}

/-- A search loads the link of the head. -/
theorem settles_findHead (hi : Inv h) (hg : Good h.cells H D) (hm : Marks h D)
    (hs : (Pc.findHead op).Stands h H D r) :
    Settles h h H D r (visit op 0 (h.node 0).next.node) := by
  refine settles_visit hg hm (Running.imp hs fun n hn _ _ => ?_)
  have hre := hi.reachable_of_live hn
  obtain ⟨b, hb, hbn⟩ := reach_succ hre (hi.ne_zero_of_live hn)
  exact ⟨b, hb, hre, hbn⟩

/-- A search loads the link of a node. -/
theorem settles_findNext (hg : Good h.cells H D) (hm : Marks h D)
    (hs : (Pc.findNext op pred item).Stands h H D r) :
    Settles h h H D r (examine op pred item (h.node item).next) := by
  refine settles_examine hg hm (Running.imp hs fun n _ _ hP => ⟨hP, fun _ => ?_⟩) id
    hm.seen
  by_cases hne : n = item
  · exact .inl hne
  · exact .inr (reach_succ hP.2 hne)

/-- A search goes on behind a node. -/
theorem settles_findSkip (hg : Good h.cells H D) (hm : Marks h D)
    (hs : (Pc.findSkip op pred item).Stands h H D r) :
    Settles h h H D r (visit op pred (h.node item).next.node) := by
  obtain ⟨hmark, hrun⟩ := hs
  refine settles_visit hg hm (hrun.imp fun n hn _ hP => ?_)
  have hne : n ≠ item := by
    rintro rfl
    rw [hn.2] at hmark
    cases hmark
  obtain ⟨b, hb, hbn⟩ := reach_succ hP.2 hne
  exact ⟨b, hb, hP.1, hbn⟩

/-- A search compares keys. -/
theorem settles_findKey (hi : Inv h) (hl : Local r.1 h (.findKey op pred item next))
    (hg : Good h.cells H D) (hm : Marks h D) (hs : (Pc.findKey op pred item next).Stands h H D r)
    (hstep : step r.1 h (.findKey op pred item next) .resume = some (h', pc')) :
    Settles h h' H D r pc' := by
  obtain ⟨-, hseen, hrun⟩ := hs
  obtain ⟨hplace, hit, -⟩ := hl
  have hd : keyDiff (h.node item).key op.key = ((h.node item).key : ℤ) - op.key :=
    keyDiff_of_near ((hi.small item hit).trans_le (Nat.le_add_left _ _))
      (hplace.1.trans_le (Nat.le_add_left _ _))
  simp only [step, hd] at hstep
  split_ifs at hstep with hle heq
  · cases hstep
    have hk : (h.node item).key = op.key := by omega
    exact settles_found hg hm hrun ⟨hk, hm.kept hit, hseen⟩ pred
  · cases hstep
    refine settles_notFound hg hm hrun ?_ pred (some item)
    rintro n - hk ⟨⟨-, hre⟩, -⟩
    -- the keys grow along the links, and this one is past already
    rcases hre.eq_or_lt hi.sorted with rfl | ⟨-, h0 | hlt⟩
    · omega
    · exact (hi.linked_lt item hit).1 h0
    · omega
  · cases hstep
    refine settles_visit hg hm (running_of_cells rfl hrun fun n _ hk hP => ?_)
    rcases hP.2 with rfl | ⟨b, hb, hbn⟩
    · omega
    · exact ⟨b, hb, hP.1.2, hbn⟩

/-- A search unlinks a marked node. -/
theorem settles_findUnlink (hi : Inv h) (hl : Local r.1 h (.findUnlink op pred item next))
    (hg : Good h.cells H D) (hm : Marks h D) (hs : (Pc.findUnlink op pred item next).Stands h H D r)
    (hstep : step r.1 h (.findUnlink op pred item next) .resume = some (h', pc')) :
    Settles h h' H D r pc' := by
  obtain ⟨hplace, hit, hmark, hnext⟩ := hl
  simp only [step] at hstep
  split_ifs at hstep with hcas hother
  · cases hstep
    have hv : (h.unlink r.1 pred item next.node).cells = h.cells := Heap.cells_unlink hcas
    have hip : item ≠ pred := by
      rintro rfl
      rw [← hnext, hcas] at hmark
      cases hmark
    have hsucc : h.succ item = next.node := congrArg Link.node hnext
    refine .of_cells hv (settles_of_stands (hv ▸ hg) (hm.setNext (by rw [hcas])) rfl ?_)
    refine running_of_cells hv hs fun n hn _ hP => ?_
    have hne : n ≠ item := by
      rintro rfl
      rw [← hnext, hn.2] at hmark
      cases hmark
    obtain ⟨b, hb, hbn⟩ := reach_succ hP.2 hne
    exact ⟨b, hsucc ▸ hb, reach_unlink hcas hsucc hip hne hP.1, reach_unlink hcas hsucc hip hne hbn⟩
  · cases hstep
    exact settles_of_stands hg hm rfl (Running.imp hs fun _ _ _ _ => trivial)
  · cases hstep
    refine settles_visit hg hm (running_of_cells rfl hs fun n hn hk hP => ?_)
    obtain ⟨b, hb, hbn⟩ := reach_succ hP.1 (hplace.ne hi hn hk)
    exact ⟨b, hb, hP.1, hbn⟩

/-- A search starts again at the node that it finds. -/
theorem settles_findReload {item : Option ℕ} {old : ℕ} (hg : Good h.cells H D) (hm : Marks h D)
    (hs : (Pc.findReload op pred item old).Stands h H D r)
    (hstep : step r.1 h (.findReload op pred item old) .resume = some (h', pc')) :
    Settles h h' H D r pc' := by
  cases item with
  | none =>
    cases hstep
    refine settles_of_stands hg hm rfl ⟨nofun, Running.imp hs ?_⟩
    rintro n - - ⟨i, hi, -⟩
    cases hi
  | some i =>
    cases hstep
    refine settles_of_stands hg hm rfl ⟨fun j hj hmark => ?_, Running.imp hs ?_⟩
    · cases hj
      exact hm.seen hmark
    · rintro n - - ⟨j, hj, hP⟩
      cases hj
      refine ⟨i, rfl, hP, fun _ => ?_⟩
      by_cases hne : n = i
      · exact .inl hne
      · exact .inr (reach_succ hP.2 hne)

/-- The node that was unlinked is deferred. -/
theorem settles_findDefer {item : Option ℕ} {old : ℕ}
    (hl : Local r.1 h (.findDefer op pred item next old)) (hg : Good h.cells H D) (hm : Marks h D)
    (hs : (Pc.findDefer op pred item next old).Stands h H D r)
    (hstep : step r.1 h (.findDefer op pred item next old) .resume = some (h', pc')) :
    Settles h h' H D r pc' := by
  obtain ⟨hseen, hrun⟩ := hs
  obtain ⟨-, -, hlinked⟩ := hl
  have hrun' : Running (h.hand r.1 old).cells H D r op.onMap fun n => ∃ i, item = some i
      ∧ Leads h pred i n ∧ (next.mark = false → Past h i next n) := hrun
  cases item with
  | none =>
    cases hstep
    refine .of_cells rfl (settles_notFound (h := h.hand r.1 old) hg hm hrun' ?_ pred none)
    rintro n - - ⟨i, hi, -⟩
    cases hi
  | some i =>
    cases hstep
    obtain ⟨-, -, hmarked⟩ := hlinked i rfl
    refine .of_cells rfl (settles_examine (h := h.hand r.1 old) hg hm (hrun'.imp ?_) (fun hn => ?_)
      (hseen i rfl))
    · rintro n - - ⟨j, hj, hP⟩
      cases hj
      exact hP
    · exact (congrArg Link.mark (hmarked hn)).trans hn

/-- `ll_lookup` loads the value. -/
theorem settles_lookupVal (hg : Good h.cells H D) (hm : Marks h D)
    (hs : (Pc.lookupVal item).Stands h H D r) :
    Settles h h H D r (.returned (h.node item).val) := by
  obtain ⟨key, hp, hmet⟩ := hs
  exact settles_returned hm (hmet.gets hg hp)

/-- The new node is allocated. -/
theorem settles_casAlloc {new : ℕ} {item : Option ℕ} (hi : Inv h) (hg : Good h.cells H D)
    (hm : Marks h D) (hs : (Pc.casAlloc op new pred item).Stands h H D r) :
    Settles h (h.alloc r.1 ⟨op.key, new, ⟨item, false⟩⟩) H D r (.casLink op pred item h.brk) := by
  obtain ⟨e, hop, hmode, hok, hp⟩ := hs
  have hold : ∀ n, n ∈ h.linked → (h.alloc r.1 ⟨op.key, new, ⟨item, false⟩⟩).node n = h.node n :=
    fun n hn => h.alloc_node_of_ne (hi.linked_lt n hn).2.ne _ _
  obtain ⟨hg', hrely⟩ : Good (h.alloc r.1 ⟨op.key, new, ⟨item, false⟩⟩).cells H D ∧ ∀ u,
      ClaimedCells.Rely u h.cells H D (h.alloc r.1 ⟨op.key, new, ⟨item, false⟩⟩).cells H D := hg.congr
    (fun n => and_congr_right fun hn => by rw [hold n hn])
    (fun n hn => congrArg Node.key (hold n (hm.linked hn)))
    fun n hn => congrArg Node.val (hold n (hm.linked hn))
  refine ⟨D, hg', ⟨fun n => (hm n).trans (and_congr_right fun hn => by rw [hold n hn]),
    e, ?_, hmode, hok, hp⟩, fun u _ => hrely u⟩
  rw [h.alloc_node_brk]
  exact hop

/-- **The CAS that links the node** decides an insertion. -/
theorem settles_casLink {n : ℕ} {next : Option ℕ} (hi : Inv h)
    (hl : Local r.1 h (.casLink op pred next n)) (hg : Good h.cells H D) (hm : Marks h D)
    (hs : (Pc.casLink op pred next n).Stands h H D r)
    (hstep : step r.1 h (.casLink op pred next n) .resume = some (h', pc')) :
    Settles h h' H D r pc' := by
  obtain ⟨e, hop, hmode, hok, hp⟩ := hs
  obtain ⟨hplace, hn0, -, hnl, -, hkey, hnext⟩ := hl
  rw [hop] at hok hp
  simp only [step] at hstep
  split_ifs at hstep with hcas
  · cases hstep
    have hpm : (h.node pred).next.mark = false := by rw [hcas]
    have hnm : (h.node n).next.mark = false := by rw [hnext]
    have hfree : D.claim n = none := by
      by_contra hc
      exact hnl ((hm n).mp hc).1
    refine settles_returned (o := .write (writeMode e) op.key (h.node n).val) (hm.link hpm hnm) ?_
    rw [Heap.cells_link hpm hnm]
    refine hg.insert hp hmode hok hfree hkey rfl fun x hx => ?_
    refine hi.absent hplace.2.1 hplace.2.2 hcas (fun b hb => ?_) hx
    -- the new node is in order with its successor
    obtain ⟨-, h0 | hlt⟩ := hi.link_below n b (by rw [Heap.succ, hnext]; exact hb)
    · exact absurd h0 hn0
    · rwa [hkey] at hlt
  · cases hstep
    refine settles_of_stands hg hm rfl ⟨?_, ?_, fun hpass => absurd ?_ hmode⟩
    · rw [hop]
      exact hok
    · rw [hop]
      exact hp
    · rw [hop] at hpass
      exact hpass

/-- `ll_cas` loads the value. -/
theorem settles_casVal {e new : ℕ} (hg : Good h.cells H D) (hm : Marks h D)
    (hs : (Pc.casVal op e new item).Stands h H D r) :
    Settles h h H D r (.casUpdate op e new item (h.node item).val) := by
  obtain ⟨hop, hok, hp, hmet⟩ := hs
  by_cases hcond : e = expectDoesNotExist ∧ (h.node item).val ≠ doesNotExist
  · -- an `ll_cas` that may only insert is decided when it loads the value
    have hreads : op.onMap.Reads := by
      rw [hop]
      exact writeMode_add.mpr hcond.1
    have hmet' : Met h.cells H D r op.onMap.key item := op.onMap_key.symm ▸ hmet
    refine (hmet'.reads hg hp hreads hcond.2).settles fun D' hclaim hd =>
      ⟨fun n => by rw [hclaim]; exact hm n, hop, hok, ?_⟩
    rw [if_pos hcond]
    exact hd
  · refine settles_of_stands hg hm rfl ⟨hop, hok, ?_⟩
    rw [if_neg hcond]
    exact ⟨hp, hmet, hmet.claimed hg⟩

/-- **The CAS on the value** decides an update. -/
theorem settles_casUpdate {e new old : ℕ} (hg : Good h.cells H D) (hm : Marks h D)
    (hs : (Pc.casUpdate op e new item old).Stands h H D r)
    (hstep : step r.1 h (.casUpdate op e new item old) .resume = some (h', pc')) :
    Settles h h' H D r pc' := by
  obtain ⟨hop, hok, hcall⟩ := hs
  simp only [step] at hstep
  split_ifs at hstep with hold hadd heq
  · cases hstep
    rw [if_neg fun hc => hc.2 hold] at hcall
    obtain ⟨hp, hmet, hclaim⟩ := hcall
    have hmet' : Met h.cells H D r op.onMap.key item := op.onMap_key.symm ▸ hmet
    exact settles_of_stands hg hm rfl (hmet'.again hp hok (hclaim hold) fun _ => True)
  · cases hstep
    rw [if_pos ⟨hadd, hold⟩] at hcall
    exact settles_decided hg hm hcall
  · cases hstep
    rw [if_neg fun hc => hadd hc.1] at hcall
    obtain ⟨hp, hmet, -⟩ := hcall
    have hmode : writeMode e ≠ .add := fun h' => hadd (writeMode_add.mp h')
    rw [hop] at hp hok
    refine settles_returned (o := .write (writeMode e) op.key new) (hm.setVal item new) ?_
    rw [Heap.cells_setVal, ← heq]
    exact hmet.updates hg hp hmode hok fun h0 => hold (heq.symm.trans h0)
  · cases hstep
    rw [if_neg fun hc => hadd hc.1] at hcall
    obtain ⟨hp, hmet, -⟩ := hcall
    refine settles_of_stands hg hm rfl ⟨hop, hok, ?_⟩
    rw [if_neg fun hc => hadd hc.1]
    exact ⟨hp, hmet, hmet.claimed hg⟩

/-- **The mark** claims the node. -/
theorem settles_removeMark (hg : Good h.cells H D) (hm : Marks h D)
    (hs : (Pc.removeMark pred item next).Stands h H D r)
    (hstep : step r.1 h (.removeMark pred item next) .resume = some (h', pc')) :
    Settles h h' H D r pc' := by
  obtain ⟨key, hp, hmet⟩ := hs
  have hlinked := hm.linked hmet.kept
  have hlost : (h.node item).next.mark = true → Decides h.cells H D h.cells r (.remove key) 0 :=
    fun hmark => Met.misses (o := .remove key) hg hmet hp trivial ((hm item).mpr ⟨hlinked, hmark⟩)
  simp only [step] at hstep
  split_ifs at hstep with hcas hmark hmark
  · cases hstep
    subst hcas
    have hv : (h.setNext item ⟨(h.node item).next.node, true⟩).cells = h.cells :=
      Heap.cells_marked hmark.symm
    refine settles_returned (o := .remove key) (hm.setNext hmark.symm) ?_
    rw [hv]
    exact hlost hmark
  · cases hstep
    subst hcas
    rw [Bool.not_eq_true] at hmark
    have hlive : h.cells.live item := ⟨hlinked, hmark⟩
    have hkey : h.cells.key item = key := hmet.key_eq
    rw [← hkey] at hp
    obtain ⟨D', hg', hclaim, hrely⟩ := hg.claim hp hlive
    rw [← Heap.cells_mark (o := ⟨(h.node item).next.node, true⟩) rfl] at hg' hrely
    refine ⟨D', hg', ⟨hm.claim hlinked rfl hclaim, ?_, ?_⟩, hrely⟩
    · rw [hclaim, Function.update_self]
    · rw [Heap.setNext_val]
      exact hg.filled item hlive
  · cases hstep
    exact settles_returned hm (hlost hmark)
  · cases hstep
    exact settles_of_stands hg hm rfl ⟨key, hp, hmet⟩

/-- **The swap of the value** decides a removal. -/
theorem settles_removeSwap (hg : Good h.cells H D) (hm : Marks h D)
    (hs : (Pc.removeSwap pred item next).Stands h H D r) :
    Settles h (h.setVal item doesNotExist) H D r (.removeUnlink pred item next (h.node item).val) := by
  obtain ⟨hc, hv⟩ := hs
  have hd := hg.empty hc hv
  rw [show (0 : ℕ) = doesNotExist from rfl, ← Heap.cells_setVal] at hd
  refine hd.settles fun D' hclaim hdec => ⟨fun n => ?_, _, hdec⟩
  rw [hclaim]
  exact hm.setVal item doesNotExist n

/-- A removal unlinks its node. -/
theorem settles_removeUnlink {val : ℕ} (hg : Good h.cells H D) (hm : Marks h D)
    (hs : (Pc.removeUnlink pred item next val).Stands h H D r)
    (hstep : step r.1 h (.removeUnlink pred item next val) .resume = some (h', pc')) :
    Settles h h' H D r pc' := by
  obtain ⟨key, hd⟩ := hs
  simp only [step] at hstep
  split_ifs at hstep with hcas
  · cases hstep
    have hv : (h.unlink r.1 pred item next.node).cells = h.cells := Heap.cells_unlink hcas
    exact .of_cells hv (settles_of_stands (hv ▸ hg) (hm.setNext (by rw [hcas])) rfl ⟨key, hv ▸ hd⟩)
  · cases hstep
    exact settles_decided hg hm hd

/-- **One step of a call.** -/
theorem settles_step {pc : Pc} (hi : Inv h) (hl : Local r.1 h pc) (hg : Good h.cells H D)
    (hm : Marks h D) (hs : pc.Stands h H D r) (hstep : step r.1 h pc .resume = some (h', pc')) :
    Settles h h' H D r pc' := by
  cases pc with
  | returned val => cases hstep
  | findHead op =>
    cases hstep
    exact settles_findHead hi hg hm hs
  | findNext op pred item =>
    cases hstep
    exact settles_findNext hg hm hs
  | findSkip op pred item =>
    cases hstep
    exact settles_findSkip hg hm hs
  | findKey op pred item next => exact settles_findKey hi hl hg hm hs hstep
  | findUnlink op pred item next => exact settles_findUnlink hi hl hg hm hs hstep
  | findReload op pred item old => exact settles_findReload hg hm hs hstep
  | findDefer op pred item next old => exact settles_findDefer hl hg hm hs hstep
  | lookupVal item =>
    cases hstep
    exact settles_lookupVal hg hm hs
  | casAlloc op new pred item =>
    cases hstep
    exact settles_casAlloc hi hg hm hs
  | casLink op pred next n => exact settles_casLink hi hl hg hm hs hstep
  | casVal op e new item =>
    cases hstep
    exact settles_casVal hg hm hs
  | casUpdate op e new item old => exact settles_casUpdate hg hm hs hstep
  | removeNext pred item =>
    cases hstep
    exact settles_of_stands hg hm rfl hs
  | removeMark pred item next => exact settles_removeMark hg hm hs hstep
  | removeSwap pred item next =>
    cases hstep
    exact settles_removeSwap hg hm hs
  | removeUnlink pred item next val => exact settles_removeUnlink hg hm hs hstep
  | removeDefer item val =>
    cases hstep
    obtain ⟨key, hd⟩ := hs
    exact .of_cells rfl (settles_decided hg hm hd)

/-! ## What other threads see -/

variable {t : ℕ} {g : Record (ClaimedCells.Op ℕ) ℕ} {pc : Pc} {cmd : Cmd}

/-- No step cuts off a live node. -/
theorem step_leads {p n : ℕ} (hi : Inv h) (hl : Local t h pc)
    (hstep : step t h pc cmd = some (h', pc')) (hp : h.Linked p) (hn : h'.cells.live n)
    (hre : Chain.Reach h.succ p n) : Chain.Reach h'.succ p n := by
  have hunlink : ∀ q i l, (h.node q).next = ⟨some i, false⟩ → (h.node i).next = ⟨l, true⟩ →
      h' = h.unlink t q i l → Chain.Reach h'.succ p n := by
    rintro q i l hcas hmark rfl
    rw [Heap.cells_unlink hcas] at hn
    have hne : n ≠ i := by
      rintro rfl
      have hm := hn.2
      rw [hmark] at hm
      cases hm
    have hiq : i ≠ q := by
      rintro rfl
      rw [hcas] at hmark
      cases hmark
    exact reach_unlink hcas (congrArg Link.node hmark) hiq hne hre
  have hsame : h'.succ = h.succ → Chain.Reach h'.succ p n := by
    intro heq
    rw [heq]
    exact hre
  cases pc with
  | findUnlink op pred item next =>
    obtain ⟨-, -, hm, hnext⟩ := hl
    cases cmd <;> simp only [step, reduceCtorEq] at hstep
    split_ifs at hstep with hcas <;> cases hstep
    · refine hunlink pred item next.node hcas ?_ rfl
      rw [hnext, ← hm]
    · exact hre
    · exact hre
  | removeUnlink pred item next val =>
    obtain ⟨-, -, hnext⟩ := hl
    cases cmd <;> simp only [step, reduceCtorEq] at hstep
    split_ifs at hstep with hcas <;> cases hstep
    · exact hunlink pred item next.node hcas hnext rfl
    · exact hre
  | findReload op pred item old | findDefer op pred item next old =>
    cases item <;> cases cmd <;> cases hstep <;> exact hre
  | casAlloc op new pred item =>
    cases cmd <;> cases hstep
    have hlt : ∀ x, h.Linked x → x < h.brk := fun x hx =>
      hx.elim (fun h0 => h0 ▸ hi.brk_pos) fun hx => (hi.linked_lt x hx).2
    refine hre.congr (S := h.Linked) hp (fun x y _ hxy => .inr (hi.link_linked x y hxy)) ?_
    intro x hx
    rw [Heap.succ, Heap.succ, h.alloc_node_of_ne (hlt x hx).ne]
  | casLink op pred next m =>
    obtain ⟨hplace, hm0, -, hml, -, -, hmx⟩ := hl
    cases cmd <;> simp only [step, reduceCtorEq] at hstep
    split_ifs at hstep with hcas <;> cases hstep
    · rw [show (h.link pred m).succ = Function.update h.succ pred (some m) from
        h.setNext_succ pred _]
      have hne : pred ≠ m := by
        rintro rfl
        exact hplace.2.1.elim hm0 hml
      refine hre.insert ?_ hne
      rw [Heap.succ, Heap.succ, hcas, hmx]
    · exact hre
  | casUpdate op e new item old =>
    cases cmd <;> simp only [step, reduceCtorEq] at hstep
    split_ifs at hstep <;> cases hstep
    · exact hre
    · exact hre
    · exact hsame (h.setVal_succ item new)
    · exact hre
  | removeMark pred item next =>
    cases cmd <;> simp only [step, reduceCtorEq] at hstep
    split_ifs at hstep with hcas <;> cases hstep
    · refine hsame ?_
      rw [Heap.setNext_succ, ← hcas]
      exact Function.update_eq_self item h.succ
    · refine hsame ?_
      rw [Heap.setNext_succ, ← hcas]
      exact Function.update_eq_self item h.succ
    · exact hre
    · exact hre
  | removeSwap pred item next =>
    cases cmd <;> cases hstep
    exact hsame (h.setVal_succ item _)
  | findKey op pred item next =>
    cases cmd <;> simp only [step, reduceCtorEq] at hstep
    split_ifs at hstep <;> cases hstep <;> exact hre
  | returned | findHead | findNext | findSkip | lookupVal | casVal | removeNext | removeDefer =>
    cases cmd <;> cases hstep
    exact hre

/-- No step writes the value of a node that is not in the list. -/
theorem step_mine {a : ℕ} (hl : Local t h pc) (hstep : step t h pc cmd = some (h', pc'))
    (ha : a < h.brk) (hal : a ∉ h.linked) : (h'.node a).val = (h.node a).val := by
  have hval : ∀ item v, item ∈ h.linked → ((h.setVal item v).node a).val = (h.node a).val := by
    intro item v hit
    have hne : a ≠ item := by
      rintro rfl
      exact hal hit
    simp [Heap.setVal, hne]
  cases pc with
  | findUnlink op pred item next | removeUnlink pred item next val | casLink op pred next m =>
    cases cmd <;> simp only [step, reduceCtorEq] at hstep
    split_ifs at hstep <;> cases hstep
    all_goals first
      | rfl
      | exact h.setNext_val _ a
  | findReload op pred item old | findDefer op pred item next old =>
    cases item <;> cases cmd <;> cases hstep <;> rfl
  | casAlloc op new pred item =>
    cases cmd <;> cases hstep
    rw [h.alloc_node_of_ne ha.ne]
  | casUpdate op e new item old =>
    cases cmd <;> simp only [step, reduceCtorEq] at hstep
    split_ifs at hstep <;> cases hstep
    · rfl
    · rfl
    · exact hval item new hl.2
    · rfl
  | removeMark pred item next =>
    cases cmd <;> simp only [step, reduceCtorEq] at hstep
    split_ifs at hstep <;> cases hstep
    · exact h.setNext_val _ a
    · exact h.setNext_val _ a
    · rfl
    · rfl
  | removeSwap pred item next =>
    cases cmd <;> cases hstep
    exact hval item _ hl.2.1
  | findKey op pred item next =>
    cases cmd <;> simp only [step, reduceCtorEq] at hstep
    split_ifs at hstep <;> cases hstep <;> rfl
  | returned | findHead | findNext | findSkip | lookupVal | casVal | removeNext | removeDefer =>
    cases cmd <;> cases hstep
    rfl

/-! ## Whole runs -/

/-- The condition on a step: a key below `2 ^ 31`, and a value that `ll_cas` accepts. -/
def LawfulCall (t : ℕ) (h : Heap) (pc : Pc) (cmd : Cmd) : Prop := SmallCall t h pc cmd ∧ cmd.Asserted

/-- The program with the record of its calls. -/
abbrev recorded : ℕ → Heap × Record (ClaimedCells.Op ℕ) ℕ → Pc → Cmd →
    Option ((Heap × Record (ClaimedCells.Op ℕ) ℕ) × Pc) :=
  withStory step (Record.after step Cmd.called Pc.answer)

/-- A step of the running call. -/
theorem explains_resume {D : Decisions ℕ} (hi : Inv h) (he : Explained h g D) (hl : Local t h pc)
    (hs : pc.Stands h g.events D (g.current t)) (hok : SmallCall t h pc .resume)
    (hstep : step t h pc .resume = some (h', pc')) :
    ∃ D', Explained h' (g.note t none pc'.answer) D'
      ∧ pc'.Stands h' (g.note t none pc'.answer).events D' ((g.note t none pc'.answer).current t)
      ∧ ∀ u, u ≠ t → Regards u h g D h' (g.note t none pc'.answer) D' := by
  obtain ⟨-, -, hrely⟩ := step_guarantee hi hl hok hstep
  obtain ⟨D', hg, ⟨hm, hst⟩, hcells⟩ :=
    settles_step (r := g.current t) hi hl he.good he.marked hs hstep
  rw [Record.current_note]
  rw [← events_note] at hg hst hcells
  exact ⟨D', ⟨hg, he.numbered.note t _, hm⟩, hst, fun u hu => ⟨hrely u hu, hcells u hu,
    congrFun (g.calls_note t _) u, fun p n hp hn hre => step_leads hi hl hstep hp hn hre,
    fun a ha _ hal => step_mine hl hstep ha hal⟩⟩

/-- The calls of the program are calls of the map. -/
theorem Op.proper_onMap (hop : op.Asserted) : op.onMap.Proper := by
  cases op with
  | lookup | remove => trivial
  | cas key expectation new => exact hop.1.ne'

/-- A call. -/
theorem explains_call {D : Decisions ℕ} (he : Explained h g D) (t : ℕ) (hop : op.onMap.Proper) :
    ∃ D', Explained h (g.call t op.onMap) D'
      ∧ (Pc.findHead op).Stands h (g.call t op.onMap).events D' ((g.call t op.onMap).current t)
      ∧ ∀ u, u ≠ t → Regards u h g D h (g.call t op.onMap) D' := by
  rw [Record.current_call]
  obtain ⟨hcall, hret⟩ := he.numbered (t, g.calls t + 1) (Nat.lt_succ_self _)
  obtain ⟨D', hg, hclaim, hu, hseeks, hrely⟩ := he.good.call ⟨hcall, hret⟩ op.onMap
  refine ⟨D', ⟨hg, he.numbered.call t _, fun n => ?_⟩, ⟨hop, hu, hseeks⟩, fun u hut =>
    ⟨Rely.refl u h, hrely u hut, Record.calls_call_of_ne hut, fun _ _ _ _ hre => hre,
      fun _ _ _ _ => rfl⟩⟩
  rw [hclaim]
  exact he.marked n

/-- **Every step is explained** by what was decided. -/
theorem explains : Explains recorded (fun t s pc cmd => LawfulCall t s.1 pc cmd)
    (fun s D => Inv s.1 ∧ Explained s.1 s.2 D)
    (fun t s D pc => Local t s.1 pc ∧ pc.Stands s.1 s.2.events D (s.2.current t))
    (fun u s D s' D' => Regards u s.1 s.2 D s'.1 s'.2 D') where
  guarantee := by
    rintro t ⟨h, g⟩ D pc cmd ⟨h', g'⟩ pc' ⟨hi, he⟩ ⟨hl, hs⟩ ⟨hsmall, hok⟩ hstep
    obtain ⟨hprog, hg'⟩ := withStory_eq_some.mp hstep
    obtain ⟨hinv, hloc, -⟩ := step_guarantee hi hl hsmall hprog
    simp only [Record.after, hprog] at hg'
    subst hg'
    cases cmd with
    | resume =>
      obtain ⟨D', he', hs', hr⟩ := explains_resume hi he hl hs hsmall hprog
      exact ⟨D', ⟨hinv, he'⟩, ⟨hloc, hs'⟩, hr⟩
    | call op =>
      cases pc with
      | returned val =>
        cases hprog
        obtain ⟨D', he', hs', hr⟩ := explains_call he t (Op.proper_onMap hok)
        exact ⟨D', ⟨hinv, he'⟩, ⟨hloc, hs'⟩, hr⟩
      | findReload op pred item old | findDefer op pred item next old => cases item <;> cases hprog
      | _ => cases hprog
  stable := by
    rintro u ⟨h, g⟩ D ⟨h', g'⟩ D' pc ⟨hi, he⟩ hr ⟨hl, hs⟩
    have hcur : g'.current u = g.current u := by
      rw [Record.current, Record.current, hr.calls]
    refine ⟨Local.stable hi hr.list hl, ?_⟩
    change pc.Stands h' g'.events D' (g'.current u)
    rw [hcur]
    exact Pc.Stands.stable (r := g.current u) hi he hr hl hs

/-- So is the start. -/
theorem init_explained : Explained init.shared Record.init ⟨[], fun _ => none⟩ where
  good :=
    { tracks := Tracks.nil
      answered := fun _ _ hv => absurd hv List.not_mem_nil
      legal := ⟨fun _ => 0, rfl, fun _ hn => absurd hn.1 List.not_mem_nil, fun _ hk => absurd rfl hk⟩
      unique := fun _ _ hn => absurd hn.1 List.not_mem_nil
      filled := fun _ hn => absurd hn.1 List.not_mem_nil
      free := fun _ _ => rfl
      claimed := nofun
      once := nofun }
  numbered := Record.numbered_init
  marked n := by simp [init]

/-- The history of a run. -/
abbrev mapHistory (es : List (ℕ × Cmd)) : History ℕ := history step Cmd.called Pc.answer init es

/-- **Linearizability of the list.**  In every run of any number of threads, with keys below
`2 ^ 31` and values that `ll_cas` accepts, the calls of `ll_lookup`, `ll_cas` and `ll_remove`
answer as those of a map, in an order that agrees with the order of the calls in time. -/
theorem list_linearizable (es : List (ℕ × Cmd)) (c : Conf Heap Pc) (hkeys : ∀ e ∈ es, SmallKey e)
    (hok : ∀ e ∈ es, e.2.Asserted) (hrun : run sys init es = some c) :
    Linearizable (mapSpec ℕ) (mapHistory es) := by
  obtain ⟨g, hg⟩ := run_withStory (Record.after step Cmd.called Pc.answer) Record.init hrun
  have hmeets : StepsMeet (interleave recorded) (onThread fun t s pc cmd => LawfulCall t s.1 pc cmd)
      (init.withStory Record.init) es :=
    (stepsMeet_of_forall_mem (P := fun e => SmallKey e ∧ e.2.Asserted)
      (fun e he => ⟨hkeys e he, hok e he⟩) _).mono fun _ _ he => he
  obtain ⟨D, ⟨-, he⟩, -⟩ := explains.holds_run (c := init.withStory Record.init)
    (g := ⟨[], fun _ => none⟩) ⟨init_holds.1, init_explained⟩ (fun t => ⟨init_holds.2 t, trivial⟩)
    hmeets hg
  obtain ⟨m, hm, -⟩ := he.good.legal
  have hhist : mapHistory es = g.events := by
    simp only [mapHistory, history, hg]
    rfl
  rw [hhist]
  exact ⟨D.log, he.good.tracks.linearizes (by rw [hm]; rfl) he.good.answered⟩

/-- Thread 1 is about to replace the value of the key when thread 2 marks its node and thread 0
inserts the key anew; then thread 1 replaces the value, and thread 2 takes it. -/
def lateUpdate : List (ℕ × Cmd) :=
  List.flatten [
    [(0, .call (.cas 5 expectDoesNotExist 7))], List.replicate 3 (0, .resume),
    [(1, .call (.cas 5 expectWhatever 9))], List.replicate 4 (1, .resume),
    [(2, .call (.remove 5))], List.replicate 5 (2, .resume),
    [(0, .call (.cas 5 expectDoesNotExist 8))], List.replicate 7 (0, .resume),
    [(1, .resume)], List.replicate 2 (2, .resume)]

/-- An update of a node that another thread has removed and set again. -/
theorem list_linearizable_late_update :
    mapHistory lateUpdate = [.call (0, 1) (.write .add 5 7), .ret (0, 1) 0,
        .call (1, 1) (.write .put 5 9), .call (2, 1) (.remove 5), .call (0, 2) (.write .add 5 8),
        .ret (0, 2) 0, .ret (1, 1) 7, .ret (2, 1) 9]
      ∧ Linearizable (mapSpec ℕ) (mapHistory lateUpdate) := by
  obtain ⟨c, hc⟩ := Option.isSome_iff_exists.mp (show (run sys init lateUpdate).isSome by
    decide +kernel)
  exact ⟨by decide +kernel, list_linearizable lateUpdate c (by simp [lateUpdate, SmallKey, Op.key])
    (by decide) hc⟩

end Step

end LinkedList
