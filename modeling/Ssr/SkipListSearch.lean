/-
# `find_preds` run alone

`find_preds` without interference, on a skiplist in which nodes may be marked and not yet
unlinked, at any levels: the nodes that `DONT_UNLINK` skips are those that `ASSIST_UNLINK`
unlinks, and both stop at the same places.

* `findPreds` — the function, with its retries, for all its arguments;
* `goes_findPreds` — it is what the atomic steps of a call amount to;
* `Heap.Marked` — the skiplists in question;
* `searches_agree` — the searches that help return what those return that do not, in lists
  and skiplists, and only take marked nodes out of the chains.
-/
import Ssr.ListSearch
import Ssr.SkipListCalls

open Map Sequential Chain MarkedChain
open LinkedList (Link Link.eq_iff atOrPast)

namespace SkipList

/-! ## The function -/

/-- The links of one level as `find_preds` reads and changes them. -/
def access (key level : ℕ) : Access Heap ℕ where
  succ h a := (h.next a level).node
  mark h a := (h.next a level).mark
  diff h a := keyDiff (h.node a).key key
  cut h pred _ next := h.setNext pred level ⟨next, false⟩

/-- `if (d > 0) break; if (d == 0 && unlink != FORCE_UNLINK) break;` -/
def Unlink.stop (unlink : Unlink) (d : ℤ) : Bool := 0 < d ∨ d = 0 ∧ unlink ≠ .force

/-- The loop `while (item != NULL)` of `find_preds` on one level. -/
def scanLevel (unlink : Unlink) (key level : ℕ) :
    ℕ → Heap → ℕ → Option ℕ → ℤ → Option (Heap × Scan ℕ) :=
  (access key level).scan (unlink ≠ .dont) unlink.stop

/-- How the loop over the levels ends. -/
inductive Scans where
  | retry (path : Path)
  | done (f : Find)

/-- The locals when the search of a level has ended. -/
def Find.leave (f : Find) (n level pred : ℕ) (item : Option ℕ) (d : ℤ) : Find :=
  ⟨pred, item, d, level, if level < n then f.path.record level pred item else f.path⟩

/-- The loop over the levels below `level`. -/
def scanLevels (unlink : Unlink) (n key fuel : ℕ) : ℕ → Heap → Find → Option (Heap × Scans)
  | 0, h, f => some (h, .done f)
  | level + 1, h, f =>
    let next := h.next f.pred level
    if next = ⟨none, false⟩ ∧ n ≤ level then
      scanLevels unlink n key fuel level h { f with level := level }
    else if next.mark then some (h, .retry f.path)
    else
      match scanLevel unlink key level fuel h f.pred next.node f.d with
      | none => none
      | some (h, .lost) => some (h, .retry f.path)
      | some (h, .stop pred item d) =>
        scanLevels unlink n key fuel level h (f.leave n level pred item d)

/-- `find_preds`: the arrays and the node that it returns. -/
def findPreds (unlink : Unlink) (n key : ℕ) : ℕ → Heap → Path → Option (Heap × Path × Option ℕ)
  | 0, _, _ => none
  | fuel + 1, h, path =>
    match scanLevels unlink n key fuel h.highWater h ⟨0, none, 0, 0, path⟩ with
    | none => none
    | some (h, .retry path) => findPreds unlink n key fuel h path
    | some (h, .done f) => some (h, f.path, if f.d = 0 then f.item else none)

/-! ## The atomic steps -/

section Goes

variable {z fuel level n : ℕ} {h h' : Heap} {c : Caller} {f f' : Find} {item : Option ℕ}

/-- What `find_preds` does when the loop over a level has ended. -/
def scanned (c : Caller) (f : Find) : Scan ℕ → Pc
  | .lost => .findStart c f.path
  | .stop pred item d => levelDone c { f with pred := pred, d := d } item

/-- **The loop over one level, step by step.** -/
theorem goes_scanLevel {r : Scan ℕ}
    (hs : scanLevel c.unlink c.key f.level fuel h f.pred item f.d = some (h', r)) :
    GoesTo z h (visit c f item) h' (scanned c f r) := by
  induction fuel generalizing h f item with
  | zero => cases hs
  | succ fuel ih =>
    cases item with
    | none =>
      cases hs
      exact Goes.refl _
    | some a =>
      refine Goes.step rfl rfl ?_
      rw [scanLevel, Access.scan] at hs
      simp only [examine]
      split_ifs at hs with hmark hdont hother hlost hstop
      · rw [if_pos (show (h.next a f.level).mark = true from hmark), if_pos (by simpa using hdont)]
        exact ih hs
      · rw [if_pos (show (h.next a f.level).mark = true from hmark), if_neg (by simpa using hdont)]
        refine Goes.step rfl ?_ (ih hs)
        exact if_pos (Link.eq_iff.mpr hother)
      · rw [if_pos (show (h.next a f.level).mark = true from hmark), if_neg (by simpa using hdont)]
        cases hs
        refine Goes.step rfl ?_ (Goes.refl _)
        simp only [step, if_neg fun hl => hother (Link.eq_iff.mp hl)]
        exact if_pos hlost
      · rw [if_pos (show (h.next a f.level).mark = true from hmark), if_neg (by simpa using hdont)]
        refine Goes.step rfl ?_ (ih hs)
        simp only [step, if_neg fun hl => hother (Link.eq_iff.mp hl)]
        exact if_neg hlost
      · rw [if_neg (show ¬ (h.next a f.level).mark = true from hmark)]
        cases hs
        refine Goes.step rfl ?_ (Goes.refl _)
        exact if_pos (of_decide_eq_true hstop)
      · rw [if_neg (show ¬ (h.next a f.level).mark = true from hmark)]
        refine Goes.step rfl ?_
          (ih (f := { f with d := keyDiff (h.node a).key c.key, pred := a }) hs)
        exact if_neg fun hd => hstop (decide_eq_true hd)

/-- What a caller of `find_preds` does next. -/
def Scans.pc (c : Caller) : Scans → Pc
  | .retry path => .findStart c path
  | .done f => resume c f.path (if f.d = 0 then f.item else none)

theorem goes_scanLevels {r : Scans}
    (hs : scanLevels c.unlink c.n c.key fuel level h f = some (h', r)) :
    GoesTo z h (descend c f level) h' (r.pc c) := by
  induction level generalizing h f with
  | zero =>
    cases hs
    exact Goes.refl _
  | succ level ih =>
    simp only [scanLevels] at hs
    rw [descend]
    split_ifs at hs with hskip hmark
    · refine Goes.step rfl (by simp only [step, if_pos hskip]; rfl) ?_
      exact ih hs
    · cases hs
      refine Goes.step rfl (by simp only [step, if_neg hskip, if_pos hmark]; rfl) ?_
      exact Goes.refl _
    · refine Goes.step rfl (by simp only [step, if_neg hskip, if_neg hmark]; rfl) ?_
      cases hscan : scanLevel c.unlink c.key level fuel h f.pred (h.next f.pred level).node f.d with
      | none =>
        rw [hscan] at hs
        cases hs
      | some r' =>
        rw [hscan] at hs
        have hgoes := goes_scanLevel (z := z) (f := { f with level := level }) hscan
        obtain ⟨h₁, _ | ⟨pred, i, d⟩⟩ := r'
        · cases hs
          exact hgoes
        · exact hgoes.trans (ih hs)

/-- **`findPreds` is what the steps of a call amount to.** -/
theorem goes_findPreds {path path' : Path}
    (hs : findPreds c.unlink c.n c.key fuel h path = some (h', path', item)) :
    GoesTo z h (.findStart c path) h' (resume c path' item) := by
  induction fuel generalizing h path with
  | zero => cases hs
  | succ fuel ih =>
    rw [findPreds] at hs
    refine Goes.step rfl rfl ?_
    cases hscan : scanLevels c.unlink c.n c.key fuel h.highWater h ⟨0, none, 0, 0, path⟩ with
    | none =>
      rw [hscan] at hs
      cases hs
    | some r =>
      rw [hscan] at hs
      obtain ⟨h₁, path₁ | f₁⟩ := r
      · exact (goes_scanLevels hscan).trans (ih hs)
      · cases hs
        exact goes_scanLevels hscan

end Goes

/-! ## Skiplists with marked nodes -/

/-- `N` are the nodes: the chains of all levels are sorted, the marked levels of a node form a
top segment, and the head is not marked. -/
structure Heap.Marked (h : Heap) (N : Set ℕ) : Prop where
  root : 0 ∈ N
  link : ∀ a ∈ N, ∀ level, (a = 0 ∨ level < (h.node a).numLevels) → ∀ b,
    h.shape.succ level a = some b →
    b ∈ N ∧ b < h.brk ∧ level < (h.node b).numLevels ∧ b ≠ 0 ∧ (a ≠ 0 → (h.node a).key < (h.node b).key)
  top : ∀ a ∈ N, ∀ level, level + 1 < (h.node a).numLevels →
    (h.next a level).mark = true → (h.next a (level + 1)).mark = true
  head : ∀ level, (h.next 0 level).mark = false

/-- Marked nodes were unlinked behind unmarked ones, at any level. -/
def Heap.Unlinks : Heap → Heap → Prop :=
  Relation.ReflTransGen fun h h' => ∃ level pred item, h.next pred level = ⟨some item, false⟩
    ∧ (h.next item level).mark = true ∧ h' = h.setNext pred level ⟨(h.next item level).node, false⟩

/-- Only links have changed: marked nodes have left the chains. -/
structure Heap.Helped (h h' : Heap) : Prop where
  key : ∀ a, (h'.node a).key = (h.node a).key
  val : ∀ a, (h'.node a).val = (h.node a).val
  numLevels : ∀ a, (h'.node a).numLevels = (h.node a).numLevels
  mark : ∀ a level, (h'.next a level).mark = (h.next a level).mark
  brk : h'.brk = h.brk
  highWater : h'.highWater = h.highWater
  handed : h'.handed = h.handed
  chain : ∀ level, ∃ xs xs', Links (h.shape.succ level) 0 xs ∧ Links (h'.shape.succ level) 0 xs'
    ∧ xs'.Sublist xs
    ∧ (xs'.filter fun a => !(h.next a level).mark) = xs.filter fun a => !(h.next a level).mark

section Search

variable {h h' g : Heap} {N : Set ℕ} {n key level fuel : ℕ}

theorem access_lawful (key level : ℕ) : (access key level).Lawful where
  succ_cut h pred item next a := by
    show ((h.setNext pred level ⟨next, false⟩).next a level).node = _ ∧ _ ∨ _
    rw [Heap.next_setNext]
    split_ifs with ha
    · exact .inl ⟨rfl, ha.1⟩
    · refine .inr ⟨fun hap => ha ⟨hap, rfl⟩, ?_⟩
      show ((h.setNext pred level ⟨next, false⟩).next a level).node = _
      rw [Heap.next_setNext, if_neg ha]
      rfl
  mark_cut h pred item next a hpred := by
    show ((h.setNext pred level ⟨next, false⟩).next a level).mark = _
    rw [Heap.next_setNext]
    split_ifs with ha
    · exact ha.1 ▸ hpred.symm
    · rfl
  diff_cut h pred item next := by
    funext a
    show keyDiff ((h.setNext pred level ⟨next, false⟩).node a).key key = _
    rw [Heap.key_setNext]
    rfl

/-- What is behind a node at one of its levels. -/
theorem Heap.Marked.chain (hm : h.Marked N) {a : ℕ} (ha : a ∈ N)
    (hlevel : a = 0 ∨ level < (h.node a).numLevels) :
    ∃ ys, Links (h.shape.succ level) a ys ∧ (a :: ys).Nodup
      ∧ (∀ b ∈ ys, b ∈ N ∧ level < (h.node b).numLevels) ∧ ys.length ≤ h.brk := by
  have hstep : ∀ x y, x ∈ N ∧ (x = 0 ∨ level < (h.node x).numLevels) → h.shape.succ level x = some y →
      (y ∈ N ∧ (y = 0 ∨ level < (h.node y).numLevels))
        ∧ ((h.view level).above y).card < ((h.view level).above x).card := by
    intro x y hx hxy
    obtain ⟨hy, hbrk, hlevel, hlt⟩ := hm.link x hx.1 level hx.2 y hxy
    exact ⟨⟨hy, .inr hlevel⟩, FrozenChain.View.above_lt (v := h.view level) hbrk hlt⟩
  obtain ⟨ys, hl, hnd, hmem, hlen⟩ := links_of_measure hstep ⟨ha, hlevel⟩
  refine ⟨ys, hl, hnd, fun b hb => ?_, hlen.trans ?_⟩
  · -- it is behind another node
    have hsource : ∃ x ∈ a :: ys, h.shape.succ level x = some b := hl.source hb
    obtain ⟨x, hx, hxb⟩ := hsource
    obtain ⟨hxN, hxlevel⟩ := (hmem x hx).1
    obtain ⟨hbN, -, hblevel, -⟩ := hm.link x hxN level hxlevel b hxb
    exact ⟨hbN, hblevel⟩
  · have hcard := Finset.card_le_card (Finset.filter_subset (fun b => b ≠ 0 ∧ (a ≠ 0 →
      (h.view level).key a < (h.view level).key b)) (Finset.range (h.view level).brk))
    rw [Finset.card_range] at hcard
    exact hcard

/-- A node that is not marked at one level of its own is not marked below. -/
theorem Heap.Marked.unmarked_below (hm : h.Marked N) {a : ℕ} (ha : a ∈ N)
    (hlevel : level < (h.node a).numLevels) (hmark : (h.next a level).mark = false) :
    ∀ l ≤ level, (h.next a l).mark = false := by
  induction level with
  | zero =>
    intro l hl
    obtain rfl := Nat.le_zero.mp hl
    exact hmark
  | succ level ih =>
    have hbelow : (h.next a level).mark = false := by
      by_contra hne
      have htop := hm.top a ha level hlevel (by simpa using hne)
      rw [hmark] at htop
      cases htop
    intro l hl
    rcases Nat.le_succ_iff.mp hl with hl | rfl
    · exact ih (Nat.lt_of_succ_lt hlevel) hbelow l hl
    · exact hmark

theorem unlinks_of_cuts (hc : (access key level).Cuts h h') : h.Unlinks h' := by
  induction hc with
  | refl => exact Relation.ReflTransGen.refl
  | tail _ hcut ih =>
    obtain ⟨pred, item, hitem, hpred, hmark, rfl⟩ := hcut
    exact ih.tail ⟨level, pred, item, Link.eq_iff.mpr ⟨hitem, hpred⟩, hmark, rfl⟩

/-- Unlinking at one level leaves the others. -/
theorem next_of_cuts (hc : (access key level).Cuts h h') {m : ℕ} (hm : m ≠ level) (a : ℕ) :
    h'.next a m = h.next a m := by
  induction hc with
  | refl => rfl
  | tail _ hcut ih =>
    obtain ⟨pred, item, -, -, -, rfl⟩ := hcut
    refine Eq.trans ?_ ih
    show (Heap.setNext _ pred level _).next a m = _
    rw [Heap.next_setNext, if_neg fun h => hm h.2]

theorem key_of_cuts (hc : (access key level).Cuts h h') (a : ℕ) :
    (h'.node a).key = (h.node a).key := by
  induction hc with
  | refl => rfl
  | tail _ hcut ih =>
    obtain ⟨pred, item, -, -, -, rfl⟩ := hcut
    exact (Heap.key_setNext ..).trans ih

/-- What the helping searches leave. -/
theorem Heap.Marked.helped (hm : h.Marked N) (hu : h.Unlinks h') : h.Helped h' := by
  induction hu with
  | refl =>
    refine ⟨fun _ => rfl, fun _ => rfl, fun _ => rfl, fun _ _ => rfl, rfl, rfl, rfl, fun level => ?_⟩
    obtain ⟨xs, hl, -⟩ := @Heap.Marked.chain _ N level hm 0 hm.root (.inl rfl)
    exact ⟨xs, xs, hl, hl, List.Sublist.refl xs, rfl⟩
  | @tail t _ _ hcut ih =>
    obtain ⟨level, pred, item, hitem, hmark, rfl⟩ := hcut
    refine ⟨fun a => ?_, fun a => ?_, fun a => ?_, fun a m => ?_, ih.brk, ih.highWater, ih.handed,
      fun m => ?_⟩
    · rw [Heap.key_setNext, ih.key]
    · rw [Heap.val_setNext, ih.val]
    · rw [Heap.numLevels_setNext, ih.numLevels]
    · rw [← ih.mark, Heap.next_setNext]
      split_ifs with ham
      · rw [ham.1, ham.2, hitem]
      · rfl
    · obtain ⟨xs, ys, hl, hly, hsub, hfilter⟩ := ih.chain m
      by_cases hmlevel : m = level
      · subst hmlevel
        obtain ⟨xs₀, hl₀, hnd, -⟩ := hm.chain hm.root (.inl rfl)
        obtain rfl := hl.unique hl₀
        have hndy : (0 :: ys).Nodup := hnd.sublist (List.cons_sublist_cons.mpr hsub)
        obtain ⟨hnode, hpred⟩ := Link.eq_iff.mp hitem
        have hcuts : (access 0 m).Cuts t (t.setNext pred m ⟨(t.next item m).node, false⟩) :=
          Relation.ReflTransGen.single ⟨pred, item, hnode, hpred, hmark, rfl⟩
        obtain ⟨zs, hlz, hsubz, hfilterz⟩ := hcuts.links (access_lawful 0 m) hly hndy
        refine ⟨xs, zs, hl, hlz, hsubz.trans hsub, Eq.trans ?_ hfilter⟩
        have hmarks : ∀ a, (access 0 m).mark t a = (h.next a m).mark := fun a => ih.mark a m
        simpa only [hmarks] using hfilterz
      · refine ⟨xs, ys, hl, hly.congr fun a _ => ?_, hsub, hfilter⟩
        show ((t.setNext pred level _).next a m).node = (t.next a m).node
        rw [Heap.next_setNext, if_neg fun h => hmlevel h.2]

/-! ## Both searches -/

/-- Where the search ends on the lowest level: behind some `p` before the key it is the first
unmarked node that is not before it. -/
def Heap.Bottom (h : Heap) (N : Set ℕ) (key : ℕ) (item : Option ℕ) : Prop :=
  ∃ p ∈ N, ∃ ys, Links (h.shape.succ 0) p ys ∧ (p = 0 ∨ keyDiff (h.node p).key key < 0)
    ∧ item = ys.find? fun y => !(h.next y 0).mark && atOrPast (keyDiff (h.node y).key key)

theorem stop_eq {unlink : Unlink} (hu : unlink ≠ .force) :
    unlink.stop = LinkedList.atOrPast := by
  funext d
  unfold Unlink.stop LinkedList.atOrPast
  refine decide_eq_decide.mpr ⟨fun hd => ?_, fun hd => ?_⟩
  · omega
  · rcases hd.lt_or_eq with h | h
    · exact .inl h
    · exact .inr ⟨h.symm, hu⟩

/-- The loops over one level. -/
theorem scanLevel_agree (hm : h.Marked N) (key : ℕ) (hfuel : h.brk < fuel) {p : ℕ} (hp : p ∈ N)
    (hlevel : p = 0 ∨ level < (h.node p).numLevels)
    (hmark : (h.next p level).mark = false) (hg : ∀ a, g.next a level = h.next a level)
    (hkey : ∀ a, (g.node a).key = (h.node a).key) (d : ℤ) :
    ∃ g' pred item d', scanLevel .dont key level fuel h p (h.next p level).node d
        = some (h, .stop pred item d')
      ∧ scanLevel .assist key level fuel g p (h.next p level).node d = some (g', .stop pred item d')
      ∧ (access key level).Cuts g g'
      ∧ (pred = p ∨ pred ∈ N ∧ level < (h.node pred).numLevels ∧ (h.next pred level).mark = false
        ∧ keyDiff (h.node pred).key key < 0)
      ∧ ∃ ys, Links (h.shape.succ level) p ys ∧ item = ys.find? fun y =>
        !(h.next y level).mark && atOrPast (keyDiff (h.node y).key key) := by
  obtain ⟨ys, hl, hnd, hmem, hlen⟩ := hm.chain hp hlevel
  have hhead : (h.next p level).node = ys.head? := hl.next_eq
  have hlg : Links ((access key level).succ g) p ys :=
    hl.congr fun a _ => congrArg LinkedList.Link.node (hg a)
  obtain ⟨pred, item, d', hplace, hpred, hitem⟩ :=
    Access.place_spec (access key level) atOrPast h ys p d
  obtain ⟨g', hscan, hcuts⟩ := Access.scan_cuts (access_lawful key level) atOrPast d hlg.spells
    hnd hlg.next_eq ((congrArg LinkedList.Link.mark (hg p)).trans hmark) (hlen.trans_lt hfuel)
  refine ⟨g', pred, item, d', ?_, ?_, hcuts, hpred.imp_right fun hp => ?_, ys, hl, hitem⟩
  · rw [hhead, scanLevel, stop_eq (by decide), ← hplace]
    exact Access.scan_skips hl.spells (hlen.trans_lt hfuel)
  · rw [hhead, scanLevel, stop_eq (by decide), ← hplace]
    refine hscan.trans (congrArg (fun r => some (g', r)) (Access.place_congr ?_ ?_))
    · exact fun y _ => congrArg LinkedList.Link.mark (hg y)
    · exact fun y _ => congrArg (keyDiff · key) (hkey y)
  · obtain ⟨hpy, hpm, hd⟩ := hp
    exact ⟨(hmem pred hpy).1, (hmem pred hpy).2, hpm, not_le.mp (of_decide_eq_false hd)⟩

/-- The loops over the levels: `g` is the heap in which the helping search has unlinked nodes
from `level` on. -/
theorem scanLevels_agree (hm : h.Marked N) (n key : ℕ) (hfuel : h.brk < fuel) {f : Find} (hp : f.pred ∈ N)
    (hlevels : f.pred = 0 ∨ level ≤ (h.node f.pred).numLevels)
    (hmark : ∀ l < level, (h.next f.pred l).mark = false)
    (hleft : f.pred = 0 ∨ keyDiff (h.node f.pred).key key < 0)
    (hg : ∀ a, ∀ l < level, g.next a l = h.next a l) (hkey : ∀ a, (g.node a).key = (h.node a).key) :
    ∃ g' f', scanLevels .dont n key fuel level h f = some (h, .done f')
      ∧ scanLevels .assist n key fuel level g f = some (g', .done f') ∧ g.Unlinks g'
      ∧ (0 < n → 0 < level → h.Bottom N key (f'.path.succs 0)) := by
  induction level generalizing f g with
  | zero => exact ⟨g, f, rfl, rfl, Relation.ReflTransGen.refl, fun _ h => absurd h (lt_irrefl 0)⟩
  | succ level ih =>
    have hlevel : level < level + 1 := Nat.lt_succ_self level
    have hbelow : ∀ l < level, l < level + 1 := fun l hl => Nat.lt_succ_of_lt hl
    simp only [scanLevels, hg f.pred level hlevel, hmark level hlevel]
    by_cases hskip : h.next f.pred level = ⟨none, false⟩ ∧ n ≤ level
    · rw [if_pos hskip, if_pos hskip]
      obtain ⟨g', f', hd, ha, hu, hbottom⟩ := ih (f := { f with level := level }) hp
        (hlevels.imp_right Nat.le_of_succ_le) (fun l hl => hmark l (hbelow l hl)) hleft (fun a l hl => hg a l (hbelow l hl)) hkey
      refine ⟨g', f', hd, ha, hu, fun hn _ => hbottom hn ?_⟩
      omega
    · rw [if_neg hskip, if_neg hskip]
      obtain ⟨g₁, pred, item, d, hdont, hassist, hcuts, hpred, ys, hl, hitem⟩ :=
        scanLevel_agree hm key hfuel hp hlevels (hmark level hlevel) (fun a => hg a level hlevel) hkey f.d
      have hu₁ : g.Unlinks g₁ := unlinks_of_cuts hcuts
      have hp' : pred ∈ N := hpred.elim (fun h => h ▸ hp) And.left
      have hmark' : ∀ l < level, (h.next pred l).mark = false := by
        rcases hpred with rfl | ⟨-, hlevels, hpm, -⟩
        · exact fun l hl => hmark l (hbelow l hl)
        · exact fun l hl => hm.unmarked_below hp' hlevels hpm l hl.le
      have hlevels' : pred = 0 ∨ level ≤ (h.node pred).numLevels := by
        rcases hpred with rfl | ⟨-, hlt, -⟩
        · exact hlevels.imp_right Nat.le_of_succ_le
        · exact .inr hlt.le
      have hleft' : pred = 0 ∨ keyDiff (h.node pred).key key < 0 := by
        rcases hpred with rfl | ⟨-, -, -, hd⟩
        · exact hleft
        · exact .inr hd
      obtain ⟨g', f', hd, ha, hu, hbottom⟩ := ih (f := f.leave n level pred item d) hp' hlevels' hmark' hleft'
        (fun a l hl => (next_of_cuts hcuts hl.ne a).trans (hg a l (hbelow l hl)))
        (fun a => (key_of_cuts hcuts a).trans (hkey a))
      refine ⟨g', f', ?_, ?_, hu₁.trans hu, fun hn _ => ?_⟩
      · rw [hdont]
        exact hd
      · rw [hassist]
        exact ha
      · rcases Nat.eq_zero_or_pos level with rfl | hpos
        · -- the lowest level was recorded last
          obtain rfl : f.leave n 0 pred item d = f' := by
            have := Option.some.inj hd
            exact Scans.done.inj (Prod.mk.inj this).2
          refine ⟨f.pred, hp, ys, hl, hleft, ?_⟩
          rw [Find.leave, if_pos hn]
          show Function.update f.path.succs 0 item 0 = _
          rw [Function.update_self]
          exact hitem
        · exact hbottom hn hpos

/-- `find_preds` with `DONT_UNLINK` and with `ASSIST_UNLINK`. -/
theorem findPreds_agree (hm : h.Marked N) (n key : ℕ) (path : Path) (hfuel : h.brk + 1 < fuel) :
    ∃ h' path' item, findPreds .dont n key fuel h path = some (h, path', item)
      ∧ findPreds .assist n key fuel h path = some (h', path', item) ∧ h.Helped h'
      ∧ (0 < n → 0 < h.highWater → h.Bottom N key (path'.succs 0)) := by
  obtain ⟨fuel, rfl⟩ := Nat.exists_eq_succ_of_ne_zero (Nat.ne_of_gt (Nat.zero_lt_of_lt hfuel))
  obtain ⟨h', f, hdont, hassist, hu, hbottom⟩ :=
    scanLevels_agree (f := ⟨0, none, 0, 0, path⟩) hm n key (Nat.lt_of_succ_lt_succ hfuel) hm.root
      (.inl rfl) (fun l _ => hm.head l) (.inl rfl)
      (fun _ _ _ => rfl) fun _ => rfl
  refine ⟨h', f.path, if f.d = 0 then f.item else none, ?_, ?_, hm.helped hu, hbottom⟩
  · rw [findPreds, hdont]
  · rw [findPreds, hassist]

end Search

end SkipList
