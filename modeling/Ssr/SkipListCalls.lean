/-
# The skiplist by a single thread

`sl_lookup`, `sl_cas`, `sl_remove`, `sl_count` and `sl_min_key` called one after the
other, with any heights: the skiplist is a sorted finite map with `looseCall`, as long as
the truncated differences of the keys have the sign of one order.

* `exec` — one call, run to its end, with the draw of `nbd_rand` it makes;
* `Heap.Towers` — the skiplist between two calls: the chain of every level is the part
  of the bottom chain that is high enough;
* `goes_search`, `goes_force` — `find_preds` on such a skiplist;
* `exec_refines` — every call returns what the sorted map returns;
* `OpChanges` — at the lowest level a call takes in one node, takes out one, or does neither.
-/
import Ssr.SkipList
import Ssr.MapCalls
import Ssr.Towers
import Ssr.FrozenChain

open Map SortedMap Sequential Chain Tower
open LinkedList (Link)
open FrozenChain (View Change)

namespace SkipList

/-! ## Calls -/

/-- The input that a running call wants, when `nbd_rand` draws `z`. -/
def Pc.input (z : ℕ) : Pc → Option Cmd
  | .returned _ => none
  | .casRandom _ => some (.rand z)
  | _ => some .resume

/-- A call of one of the three functions, to its end. -/
def execOp (fuel z : ℕ) (h : Heap) (op : Op) : Option (ℕ × Heap) :=
  match step h (.returned doesNotExist) (.call op) with
  | none => none
  | some (h, pc) =>
    match finish step (Pc.input z) fuel h pc with
    | some (h, .returned v) => some (v, h)
    | _ => none

/-- The loop of `sl_count`. -/
def slCount (h : Heap) : ℕ → Option ℕ → ℕ → Option ℕ
  | 0, _, _ => none
  | _ + 1, none, count => some count
  | fuel + 1, some item, count =>
    slCount h fuel (h.next item 0).node (if (h.next item 0).mark then count else count + 1)

/-- The loop of `sl_min_key`. -/
def slMinKey (h : Heap) : ℕ → Option ℕ → Option ℕ
  | 0, _ => none
  | _ + 1, none => some doesNotExist
  | fuel + 1, some item =>
    if (h.next item 0).mark then slMinKey h fuel (h.next item 0).node
    else some (h.node item).key

/-- A call, with the number that `nbd_rand` draws in it. -/
def exec (fuel : ℕ) (h : Heap) (c : Map.Call × ℕ) : Option (ℕ × Heap) :=
  match c.1 with
  | .get key => execOp fuel c.2 h (.lookup key)
  | .cas key expectation new => execOp fuel c.2 h (.cas ⟨key, expectation, new⟩)
  | .remove key => execOp fuel c.2 h (.remove key)
  | .count => (slCount h fuel (h.next 0 0).node 0).map fun n => (n, h)
  | .minKey => (slMinKey h fuel (h.next 0 0).node).map fun key => (key, h)

/-! ## The skiplist between two calls -/

/-- The nodes and their links, marks stripped. -/
def Heap.shape (h : Heap) : Shape where
  key a := (h.node a).key
  val a := (h.node a).val
  height a := (h.node a).numLevels
  succ level a := (h.next a level).node
  brk := h.brk
  water := h.highWater

/-- The links, marks and keys of one level. -/
def Heap.view (h : Heap) (level : ℕ) : View where
  succ := h.shape.succ level
  mark a := (h.next a level).mark
  key a := (h.node a).key
  brk := h.brk

/-- The nodes of the skiplist are the towers `xs` and none is marked. -/
structure Heap.Towers (rank : ℕ ↪ ℤ) (h : Heap) (xs : List ℕ) : Prop where
  shape : h.shape.Towers rank xs
  unmarked : ∀ a ∈ 0 :: xs, ∀ level, (h.next a level).mark = false
  water : 0 < h.highWater ∧ h.highWater ≤ maxLevels

/-- The skiplist holds the map `m`. -/
def Heap.Refines (rank : ℕ ↪ ℤ) (h : Heap) (m : List (ℕ × ℕ)) : Prop :=
  ∃ xs, h.Towers rank xs ∧ m = h.shape.entries xs

/-- The program goes from one place to another. -/
abbrev GoesTo (z : ℕ) (h : Heap) (pc : Pc) (h' : Heap) (pc' : Pc) : Prop :=
  Goes step (Pc.input z) (h, pc) (h', pc')

/-! ## `find_preds` without marks -/

section Search

variable {z : ℕ} {h : Heap} {c : Caller}

/-- The link of a node that is not marked. -/
theorem next_of_unmarked {a level : ℕ} {item : Option ℕ} (hmark : (h.next a level).mark = false)
    (hnext : h.shape.succ level a = item) : h.next a level = ⟨item, false⟩ := by
  rw [← hnext, ← hmark]
  rfl

/-- The search of one level passes the nodes of smaller keys. -/
theorem goes_prefix {f : Find} {lo rest : List ℕ}
    (hl : Links (h.shape.succ f.level) f.pred (lo ++ rest))
    (hmark : ∀ a ∈ lo, (h.next a f.level).mark = false)
    (hlo : ∀ a ∈ lo, keyDiff (h.node a).key c.key < 0) :
    ∃ d, GoesTo z h (visit c f (lo ++ rest).head?) h
      (visit c { f with pred := lo.getLastD f.pred, d := d } rest.head?) := by
  induction lo generalizing f with
  | nil => exact ⟨f.d, Goes.refl _⟩
  | cons a lo ih =>
    have hex : examine c f a (h.next a f.level) = .findKey c f a (h.next a f.level) := by
      rw [examine, if_neg]
      simp [hmark a List.mem_cons_self]
    have hd := hlo a List.mem_cons_self
    have hgo : ¬ (0 < keyDiff (h.node a).key c.key
        ∨ keyDiff (h.node a).key c.key = 0 ∧ c.unlink ≠ .force) := by
      omega
    have hrest : Links (h.shape.succ f.level) a (lo ++ rest) := hl.2
    obtain ⟨d, hg⟩ := ih (f := { f with d := keyDiff (h.node a).key c.key, pred := a }) hrest
      (fun b hb => hmark b (List.mem_cons_of_mem a hb))
      (fun b hb => hlo b (List.mem_cons_of_mem a hb))
    refine ⟨d, Goes.step rfl rfl ?_⟩
    rw [hex]
    refine Goes.step rfl (by simp only [step, if_neg hgo]; rfl) ?_
    rw [List.getLastD_cons, show (h.next a f.level).node = (lo ++ rest).head? from hrest.next_eq]
    exact hg

/-- The search of one level stops at an unmarked node whose key is not smaller. -/
theorem goes_stop {f : Find} {hi : List ℕ}
    (hmark : ∀ b ∈ hi, (h.next b f.level).mark = false)
    (hhi : ∀ b ∈ hi.head?, 0 < keyDiff (h.node b).key c.key
      ∨ keyDiff (h.node b).key c.key = 0 ∧ c.unlink ≠ .force) :
    ∃ d, (∀ b ∈ hi.head?, d = keyDiff (h.node b).key c.key)
      ∧ GoesTo z h (visit c f hi.head?) h (levelDone c { f with d := d } hi.head?) := by
  cases hi with
  | nil => exact ⟨f.d, by simp, Goes.refl _⟩
  | cons b hi =>
    have hex : examine c f b (h.next b f.level) = .findKey c f b (h.next b f.level) := by
      rw [examine, if_neg]
      simp [hmark b List.mem_cons_self]
    refine ⟨keyDiff (h.node b).key c.key, by simp, Goes.step rfl rfl ?_⟩
    rw [hex]
    refine Goes.step rfl ?_ (Goes.refl _)
    simp only [step, if_pos (hhi b rfl)]
    rfl

/-- What the search knows when the levels from `level` on are done: `lo` are the nodes of
smaller keys and `hi` the others. -/
structure Searched (c : Caller) (h : Heap) (lo hi : List ℕ) (level : ℕ) (f : Find) : Prop where
  pred : f.pred = (h.shape.above level lo).getLastD 0
  item : f.item = (h.shape.above level hi).head?
  diff : ∀ b ∈ f.item, f.d = keyDiff (h.node b).key c.key
  preds : ∀ l, level ≤ l → l < c.n → l < h.highWater →
    f.path.preds l = (h.shape.above l lo).getLastD 0
  succs : ∀ l, level ≤ l → l < c.n → l < h.highWater → f.path.succs l = (h.shape.above l hi).head?

/-- The part of a level behind the node where the search of the level above ended. -/
theorem Searched.rest {rank : ℕ ↪ ℤ} {lo hi : List ℕ} {level : ℕ} {f : Find}
    (ht : h.Towers rank (lo ++ hi)) (hs : Searched c h lo hi (level + 1) f) :
    ∃ back, Links (h.shape.succ level) f.pred (back ++ h.shape.above level hi) ∧ (∀ a ∈ back, a ∈ lo)
      ∧ (h.shape.above level lo).getLastD 0 = back.getLastD f.pred
      ∧ h.next f.pred level = ⟨(back ++ h.shape.above level hi).head?, false⟩ := by
  have hlinks := ht.shape.links level
  rw [above_append] at hlinks
  obtain ⟨back, hrest, hback, hlast⟩ :=
    hlinks.rest fun b (hb : b ∈ h.shape.above (level + 1) lo) => mem_above_of_succ hb
  rw [← hs.pred] at hrest hlast
  refine ⟨back, hrest, fun a ha => (mem_above.mp (hback a ha)).1, hlast, ?_⟩
  refine next_of_unmarked (ht.unmarked f.pred ?_ level) hrest.next_eq
  rw [hs.pred]
  rcases List.mem_cons.mp (getLastD_mem 0 (h.shape.above (level + 1) lo)) with h0 | hm
  · rw [h0]
    exact List.mem_cons_self
  · exact List.mem_cons_of_mem 0 (List.mem_append_left hi (mem_above.mp hm).1)

/-- The search of a level is done. -/
theorem Searched.record {lo hi : List ℕ} {level : ℕ} {f : Find} {d : ℤ}
    (hs : Searched c h lo hi (level + 1) f)
    (hd : ∀ b ∈ (h.shape.above level hi).head?, d = keyDiff (h.node b).key c.key) :
    ∃ f', Searched c h lo hi level f' ∧
      levelDone c { f with level := level, pred := (h.shape.above level lo).getLastD 0, d := d }
        (h.shape.above level hi).head? = descend c f' level := by
  refine ⟨_, ⟨rfl, rfl, hd, ?_, ?_⟩, rfl⟩
  · intro l hl hln hlw
    rcases hl.lt_or_eq with hlt | rfl
    · show Path.preds (if level < c.n then _ else _) l = _
      have hold := hs.preds l hlt hln hlw
      split_ifs
      · rw [← hold]
        exact Function.update_of_ne hlt.ne' ..
      · exact hold
    · show Path.preds (if level < c.n then _ else _) level = _
      rw [if_pos hln]
      exact Function.update_self ..
  · intro l hl hln hlw
    rcases hl.lt_or_eq with hlt | rfl
    · show Path.succs (if level < c.n then _ else _) l = _
      have hold := hs.succs l hlt hln hlw
      split_ifs
      · rw [← hold]
        exact Function.update_of_ne hlt.ne' ..
      · exact hold
    · show Path.succs (if level < c.n then _ else _) level = _
      rw [if_pos hln]
      exact Function.update_self ..

/-- One level of the search. -/
theorem goes_level {rank : ℕ ↪ ℤ} {lo hi : List ℕ} {level : ℕ} {f : Find}
    (ht : h.Towers rank (lo ++ hi)) (hforce : c.unlink ≠ .force)
    (hlo : ∀ a ∈ lo, keyDiff (h.node a).key c.key < 0)
    (hhi : ∀ b ∈ (h.shape.above level hi).head?, 0 ≤ keyDiff (h.node b).key c.key)
    (hs : Searched c h lo hi (level + 1) f) :
    ∃ f', Searched c h lo hi level f'
      ∧ GoesTo z h (descend c f (level + 1)) h (descend c f' level) := by
  obtain ⟨back, hrest, hback, hlast, hnext⟩ := hs.rest ht
  by_cases hskip : (back ++ h.shape.above level hi).head? = none ∧ c.n ≤ level
  · -- an empty rest above the recorded levels
    obtain ⟨hback0, hhi0⟩ := List.append_eq_nil_iff.mp (List.head?_eq_none_iff.mp hskip.1)
    have hitem : f.item = none := by
      rw [hs.item, List.head?_eq_none_iff, List.eq_nil_iff_forall_not_mem]
      intro b hb
      have hmem := mem_above_of_succ hb
      rw [hhi0] at hmem
      exact List.not_mem_nil hmem
    refine ⟨{ f with level := level }, ⟨?_, ?_, hs.diff, ?_, ?_⟩, Goes.step rfl ?_ (Goes.refl _)⟩
    · rw [hlast, hback0]
      rfl
    · rw [hhi0]
      exact hitem
    · intro l hl hln
      omega
    · intro l hl hln
      omega
    · have hcond : h.next f.pred level = ⟨none, false⟩ ∧ c.n ≤ level := by
        rw [hnext, hskip.1]
        exact ⟨rfl, hskip.2⟩
      show step h (.findPred c { f with level := level }) .resume = _
      simp only [step, if_pos hcond]
  · have hmark : ∀ a ∈ back ++ h.shape.above level hi, (h.next a level).mark = false := by
      intro a ha
      refine ht.unmarked a (List.mem_cons_of_mem 0 ?_) level
      rcases List.mem_append.mp ha with ha | ha
      · exact List.mem_append_left hi (hback a ha)
      · exact List.mem_append_right lo (mem_above.mp ha).1
    obtain ⟨d₁, hg₁⟩ := goes_prefix (z := z) (c := c) (f := { f with level := level }) hrest
      (fun a ha => hmark a (List.mem_append_left _ ha)) fun a ha => hlo a (hback a ha)
    rw [← hlast] at hg₁
    have hstop : ∀ b ∈ (h.shape.above level hi).head?, 0 < keyDiff (h.node b).key c.key
        ∨ keyDiff (h.node b).key c.key = 0 ∧ c.unlink ≠ .force := by
      intro b hb
      rcases (hhi b hb).lt_or_eq with hlt | heq
      · exact Or.inl hlt
      · exact Or.inr ⟨heq.symm, hforce⟩
    obtain ⟨d, hd, hg₂⟩ := goes_stop (z := z)
      (f := { f with level := level, pred := (h.shape.above level lo).getLastD 0, d := d₁ })
      (fun b hb => hmark b (List.mem_append_right _ hb)) hstop
    obtain ⟨f', hs', hdone⟩ := hs.record hd
    refine ⟨f', hs', Goes.step rfl ?_ (hdone ▸ hg₁.trans hg₂)⟩
    have hcond : ¬ (h.next f.pred level = ⟨none, false⟩ ∧ c.n ≤ level) := by
      rintro ⟨hnone, hn⟩
      rw [hnext] at hnone
      exact hskip ⟨congrArg Link.node hnone, hn⟩
    show step h (.findPred c { f with level := level }) .resume = _
    simp only [step]
    rw [if_neg hcond, hnext]
    rfl

/-- All levels of the search. -/
theorem goes_levels {rank : ℕ ↪ ℤ} {lo hi : List ℕ} {level : ℕ} {f : Find}
    (ht : h.Towers rank (lo ++ hi)) (hforce : c.unlink ≠ .force)
    (hlo : ∀ a ∈ lo, keyDiff (h.node a).key c.key < 0)
    (hhi : ∀ level, ∀ b ∈ (h.shape.above level hi).head?, 0 ≤ keyDiff (h.node b).key c.key)
    (hs : Searched c h lo hi level f) :
    ∃ f', Searched c h lo hi 0 f' ∧ GoesTo z h (descend c f level) h (descend c f' 0) := by
  induction level generalizing f with
  | zero => exact ⟨f, hs, Goes.refl _⟩
  | succ level ih =>
    obtain ⟨f₁, hs₁, hg₁⟩ := goes_level (z := z) ht hforce hlo (hhi level) hs
    obtain ⟨f', hs', hg'⟩ := ih hs₁
    exact ⟨f', hs', hg₁.trans hg'⟩

/-- What `find_preds` records of the levels below `c.n`. -/
structure Recorded (c : Caller) (h : Heap) (lo hi : List ℕ) (path : Path) : Prop where
  preds : ∀ l, l < c.n → l < h.highWater → path.preds l = (h.shape.above l lo).getLastD 0
  succs : ∀ l, l < c.n → l < h.highWater → path.succs l = (h.shape.above l hi).head?

/-- **`find_preds`** between the nodes of smaller keys and the others. -/
theorem goes_search {rank : ℕ ↪ ℤ} {lo hi : List ℕ} (path : Path) (ht : h.Towers rank (lo ++ hi))
    (hforce : c.unlink ≠ .force) (hlo : ∀ a ∈ lo, keyDiff (h.node a).key c.key < 0)
    (hhi : ∀ level, ∀ b ∈ (h.shape.above level hi).head?, 0 ≤ keyDiff (h.node b).key c.key) :
    ∃ path', Recorded c h lo hi path' ∧
      GoesTo z h (.findStart c path) h (resume c path'
        (hi.head?.filter fun b => keyDiff (h.node b).key c.key = 0)) := by
  have hheights : ∀ a ∈ lo ++ hi, (h.node a).numLevels ≤ h.highWater :=
    fun a ha => (ht.shape.heights a ha).2
  have hs : Searched c h lo hi h.highWater ⟨0, none, 0, 0, path⟩ := by
    refine ⟨?_, ?_, by simp, ?_, ?_⟩
    · rw [above_eq_nil fun a ha => hheights a (List.mem_append_left hi ha)]
      rfl
    · rw [above_eq_nil fun a ha => hheights a (List.mem_append_right lo ha)]
      rfl
    · intro l hl _ hlw
      omega
    · intro l hl _ hlw
      omega
  obtain ⟨f, hf, hg⟩ := goes_levels (z := z) ht hforce hlo hhi hs
  refine ⟨f.path, ⟨fun l => hf.preds l (Nat.zero_le l), fun l => hf.succs l (Nat.zero_le l)⟩,
    Goes.step rfl rfl ?_⟩
  have hitem : f.item = hi.head? := by
    rw [hf.item, above_zero fun a ha => (ht.shape.heights a (List.mem_append_right lo ha)).1]
  have hresult : (if f.d = 0 then f.item else none)
      = hi.head?.filter fun b => keyDiff (h.node b).key c.key = 0 := by
    rw [← hitem]
    cases hb : f.item with
    | none => simp
    | some b => simp [Option.filter, hf.diff b hb]
  rw [← hresult]
  exact hg

end Search

/-! ## Stores into one link of every level -/

section Relink

variable {h : Heap} {p : ℕ → ℕ} {v : ℕ → Link}

/-- At every level `m` from `i` to below `j` the link of node `p m` is `v m`. -/
def Heap.relink (h : Heap) (p : ℕ → ℕ) (v : ℕ → Link) (i j : ℕ) : Heap :=
  { h with
    node := fun b => { h.node b with
      next := fun m => if i ≤ m ∧ m < j ∧ b = p m then v m else h.next b m } }

/-- The links of a node that is linked on some levels. -/
theorem Heap.next_relink (i j b m : ℕ) : (h.relink p v i j).next b m
    = if i ≤ m ∧ m < j ∧ b = p m then v m else h.next b m := rfl

/-- Heaps with the same links and contents. -/
theorem Heap.ext_next {g h : Heap} (hbrk : g.brk = h.brk) (hwater : g.highWater = h.highWater)
    (hhanded : g.handed = h.handed) (hkey : ∀ b, (g.node b).key = (h.node b).key)
    (hval : ∀ b, (g.node b).val = (h.node b).val)
    (hlevels : ∀ b, (g.node b).numLevels = (h.node b).numLevels)
    (hnext : ∀ b m, g.next b m = h.next b m) : g = h := by
  obtain ⟨gnode, gbrk, gwater, ghanded⟩ := g
  obtain ⟨hnode, hbrk', hwater', hhanded'⟩ := h
  obtain rfl : gbrk = hbrk' := hbrk
  obtain rfl : gwater = hwater' := hwater
  obtain rfl : ghanded = hhanded' := hhanded
  congr 1
  funext b
  have h₁ := hkey b
  have h₂ := hval b
  have h₃ := hlevels b
  have h₄ : (gnode b).next = (hnode b).next := funext (hnext b)
  cases hg : gnode b
  cases hh : hnode b
  simp only [hg, hh] at h₁ h₂ h₃ h₄
  rw [h₁, h₂, h₃, h₄]

/-- No level is linked. -/
theorem Heap.relink_self (i : ℕ) : h.relink p v i i = h := by
  refine Heap.ext_next rfl rfl rfl (fun _ => rfl) (fun _ => rfl) (fun _ => rfl) fun b m => ?_
  rw [Heap.next_relink, if_neg (by omega)]

/-- One level more at the top. -/
theorem Heap.setNext_relink_top {i j : ℕ} (hij : i ≤ j) :
    (h.relink p v i j).setNext (p j) j (v j) = h.relink p v i (j + 1) := by
  refine Heap.ext_next rfl rfl rfl (fun _ => Heap.key_setNext ..) (fun _ => Heap.val_setNext ..)
    (fun _ => Heap.numLevels_setNext ..) fun b m => ?_
  rw [Heap.next_setNext, Heap.next_relink, Heap.next_relink]
  by_cases hm : m = j
  · subst hm
    by_cases hb : b = p m
    · rw [if_pos ⟨hb, rfl⟩, if_pos ⟨hij, Nat.lt_succ_self m, hb⟩]
    · rw [if_neg (by tauto), if_neg (by tauto), if_neg (by tauto)]
  · rw [if_neg (by tauto)]
    have hlt : m < j + 1 ↔ m < j := by omega
    simp only [hlt]

/-- One level more at the bottom. -/
theorem Heap.setNext_relink_bottom {i j : ℕ} (hij : i < j) :
    (h.relink p v (i + 1) j).setNext (p i) i (v i) = h.relink p v i j := by
  refine Heap.ext_next rfl rfl rfl (fun _ => Heap.key_setNext ..) (fun _ => Heap.val_setNext ..)
    (fun _ => Heap.numLevels_setNext ..) fun b m => ?_
  rw [Heap.next_setNext, Heap.next_relink, Heap.next_relink]
  by_cases hm : m = i
  · subst hm
    by_cases hb : b = p m
    · rw [if_pos ⟨hb, rfl⟩, if_pos ⟨le_rfl, hij, hb⟩]
    · rw [if_neg (by tauto), if_neg (by tauto), if_neg (by tauto)]
  · rw [if_neg (by tauto)]
    have hle : i + 1 ≤ m ↔ i ≤ m := by omega
    simp only [hle]

end Relink

/-! ## The insertion of a node -/

section Insertion

variable {z : ℕ}

/-- The links to the new node at the levels below `j`. -/
def Heap.linkedBelow (g : Heap) (ins : Insert) (j : ℕ) : Heap :=
  g.relink ins.path.preds (fun _ => ⟨some ins.newItem, false⟩) 0 j

/-- The loop that links the new node. -/
theorem goes_linkLevel (g : Heap) (key : ℕ) (ins : Insert)
    (hpreds : ∀ m, m < ins.n → g.next (ins.path.preds m) m = ⟨ins.path.succs m, false⟩)
    {j : ℕ} (hj : j ≤ ins.n) :
    GoesTo z (g.linkedBelow ins j) (linkLevel key ins j)
      (g.linkedBelow ins ins.n) (.casCheck key ins) := by
  induction hd : ins.n - j generalizing j with
  | zero =>
    obtain rfl : j = ins.n := by omega
    rw [linkLevel, if_neg (lt_irrefl _)]
    exact Goes.refl _
  | succ d ih =>
    have hlt : j < ins.n := by omega
    have hcas : (g.linkedBelow ins j).next (ins.path.preds j) j = ⟨ins.path.succs j, false⟩ := by
      rw [Heap.linkedBelow, Heap.next_relink, if_neg (by omega)]
      exact hpreds j hlt
    rw [linkLevel, if_pos hlt]
    refine Goes.step rfl ?_ (ih (by omega : j + 1 ≤ ins.n) (by omega))
    simp only [step]
    rw [if_pos hcas, Heap.linkedBelow, Heap.setNext_relink_top (Nat.zero_le j)]
    rfl

/-- The insertion, from the allocation of the node to the return. -/
theorem goes_insert {h : Heap} {args : Cas} {n : ℕ} {path : Path} (hn : 0 < n)
    (hpreds : ∀ m, m < n → path.preds m ≠ h.brk ∧ h.next (path.preds m) m = ⟨path.succs m, false⟩) :
    GoesTo z h (.casAlloc args n path)
      ((h.alloc args n path.succs).linkedBelow ⟨h.brk, n, path⟩ n) (.returned doesNotExist) := by
  have hpreds' : ∀ m, m < n →
      (h.alloc args n path.succs).next (path.preds m) m = ⟨path.succs m, false⟩ := by
    intro m hm
    obtain ⟨hne, hnext⟩ := hpreds m hm
    rw [Heap.next, Heap.node_alloc_of_ne _ hne]
    exact hnext
  have hlink := goes_linkLevel (z := z) (h.alloc args n path.succs) args.key ⟨h.brk, n, path⟩ hpreds'
    (show 1 ≤ n from hn)
  refine Goes.step rfl rfl (Goes.step rfl ?_ (hlink.trans (Goes.step rfl ?_ (Goes.refl _))))
  · simp only [step]
    rw [if_pos (hpreds' 0 hn), Heap.linkedBelow, ← Heap.setNext_relink_top (Nat.zero_le 0),
      Heap.relink_self]
  · -- the new node is not marked
    have hmark : (((h.alloc args n path.succs).linkedBelow ⟨h.brk, n, path⟩ n).next h.brk
        (n - 1)).mark = false := by
      rw [Heap.linkedBelow, Heap.next_relink]
      split_ifs
      · rfl
      · rw [Heap.next, Heap.node_alloc_brk]
    simp only [step, hmark]
    rfl

end Insertion

/-! ## What the calls do to the towers -/

section Towers

variable {rank : ℕ ↪ ℤ} {h : Heap} {lo hi : List ℕ} {k x : ℕ}

/-- The node before a place at a level. -/
theorem Heap.Towers.pred (ht : h.Towers rank (lo ++ hi)) (level : ℕ) :
    (h.shape.above level lo).getLastD 0 < h.brk ∧ h.next ((h.shape.above level lo).getLastD 0) level
      = ⟨(h.shape.above level hi).head?, false⟩ := by
  obtain ⟨halloc, hsucc⟩ := ht.shape.pred level
  have hmem := getLastD_above_mem h.shape level lo hi
  exact ⟨halloc, next_of_unmarked (ht.unmarked _ hmem level) hsucc⟩

/-- A new node behind the nodes of smaller keys. -/
theorem Heap.Towers.insert (ht : h.Towers rank (lo ++ hi))
    (hlo : ∀ a ∈ lo, rank (h.node a).key < rank k) (hhi : ∀ a ∈ hi, rank k < rank (h.node a).key)
    (h' : Heap) {v n : ℕ} (hv : v ≠ doesNotExist) (hn : 0 < n) (hnw : n ≤ h.highWater)
    (hbrk : h'.brk = h.brk + 1) (hwater : h'.highWater = h.highWater)
    (hkey : (h'.node h.brk).key = k) (hval : (h'.node h.brk).val = v)
    (hlevels : (h'.node h.brk).numLevels = n)
    (hnew : ∀ m, h'.next h.brk m = ⟨if m < n then (h.shape.above m hi).head? else none, false⟩)
    (hsame : ∀ a, a ≠ h.brk → (h'.node a).key = (h.node a).key ∧ (h'.node a).val = (h.node a).val
      ∧ (h'.node a).numLevels = (h.node a).numLevels)
    (hnext : ∀ a m, a ≠ h.brk → h'.next a m
      = if m < n ∧ a = (h.shape.above m lo).getLastD 0 then ⟨some h.brk, false⟩ else h.next a m) :
    h'.Towers rank (lo ++ h.brk :: hi) ∧ h'.shape.entries (lo ++ h.brk :: hi)
      = h.shape.entries lo ++ (k, v) :: h.shape.entries hi := by
  have hsucc : ∀ a m, a ≠ h.shape.brk → h'.shape.succ m a
      = if m < n ∧ a = (h.shape.above m lo).getLastD 0 then some h.shape.brk
        else h.shape.succ m a := by
    intro a m ha
    exact (congrArg Link.node (hnext a m ha)).trans (apply_ite Link.node ..)
  obtain ⟨hshape, hentries⟩ := ht.shape.insert hlo hhi h'.shape hv hn hnw hbrk hwater hkey hval
    hlevels (fun m => congrArg Link.node (hnew m)) hsame hsucc
  refine ⟨⟨hshape, ?_, hwater ▸ ht.water⟩, hentries⟩
  intro a ha level
  rcases mem_insert_iff.mp ha with rfl | ha
  · rw [hnew]
  · rw [hnext a level (ht.shape.alloc a ha).ne]
    split_ifs
    · rfl
    · exact ht.unmarked a ha level

/-- A new value for a node. -/
theorem Heap.Towers.update {v : ℕ} (ht : h.Towers rank (lo ++ x :: hi))
    (hv : v ≠ doesNotExist) :
    (h.setVal x v).Towers rank (lo ++ x :: hi) ∧ (h.setVal x v).shape.entries (lo ++ x :: hi)
        = h.shape.entries lo ++ ((h.node x).key, v) :: h.shape.entries hi := by
  obtain ⟨hshape, hentries⟩ := ht.shape.update (h.setVal x v).shape hv rfl rfl
    (fun a => Heap.key_setVal ..) (fun a => Heap.numLevels_setVal ..)
    (fun m a => congrArg Link.node (Heap.next_setVal ..)) (fun a => Heap.val_setVal ..)
  refine ⟨⟨hshape, ?_, ht.water⟩, hentries⟩
  intro a ha level
  rw [Heap.next_setVal]
  exact ht.unmarked a ha level

/-- `high_water` rises. -/
theorem Heap.Towers.raise {xs : List ℕ} (ht : h.Towers rank xs) (hw : h.highWater < maxLevels) :
    Heap.Towers rank { h with highWater := h.highWater + 1 } xs :=
  ⟨ht.shape.raise, ht.unmarked, Nat.succ_pos _, hw⟩

/-- A node goes. -/
theorem Heap.Towers.remove (ht : h.Towers rank (lo ++ x :: hi)) (h' : Heap)
    (hbrk : h'.brk = h.brk) (hwater : h'.highWater = h.highWater)
    (hsame : ∀ a, a ≠ x → (h'.node a).key = (h.node a).key ∧ (h'.node a).val = (h.node a).val
      ∧ (h'.node a).numLevels = (h.node a).numLevels)
    (hnext : ∀ a m, a ≠ x → h'.next a m
      = if m < (h.node x).numLevels ∧ a = (h.shape.above m lo).getLastD 0
        then ⟨(h.shape.above m hi).head?, false⟩ else h.next a m) :
    h'.Towers rank (lo ++ hi)
      ∧ h'.shape.entries (lo ++ hi) = h.shape.entries lo ++ h.shape.entries hi := by
  have hsucc : ∀ a m, a ≠ x → h'.shape.succ m a
      = if m < h.shape.height x ∧ a = (h.shape.above m lo).getLastD 0
        then (h.shape.above m hi).head? else h.shape.succ m a := by
    intro a m ha
    exact (congrArg Link.node (hnext a m ha)).trans (apply_ite Link.node ..)
  obtain ⟨hshape, hentries⟩ := ht.shape.remove h'.shape hbrk hwater hsame hsucc
  refine ⟨⟨hshape, ?_, hwater ▸ ht.water⟩, hentries⟩
  intro a ha level
  rw [hnext a level (ht.shape.ne_parts a ha)]
  split_ifs
  · rfl
  · refine ht.unmarked a ?_ level
    simp only [List.mem_cons, List.mem_append] at ha ⊢
    tauto

end Towers

/-! ## The removal of a node -/

section Removal

variable {z : ℕ} {rank : ℕ ↪ ℤ} {h : Heap} {lo hi : List ℕ} {x : ℕ}

/-- Node `x` marked at its levels from `i` on. -/
def Heap.markedFrom (h : Heap) (x i : ℕ) : Heap :=
  h.relink (fun _ => x) (fun m => ⟨(h.next x m).node, true⟩) i (h.node x).numLevels

/-- The loop that marks the node from the top down. -/
theorem goes_markLevel (key : ℕ) (hmark : ∀ m, (h.next x m).mark = false) {i : ℕ}
    (hi : i ≤ (h.node x).numLevels) :
    GoesTo z (h.markedFrom x i) (markLevel key x i) (h.markedFrom x 0) (.removeSwap key x) := by
  induction i with
  | zero => exact Goes.refl _
  | succ i ih =>
    have hload : (h.markedFrom x (i + 1)).next x i = ⟨(h.next x i).node, false⟩ := by
      rw [Heap.markedFrom, Heap.next_relink, if_neg (by omega), ← hmark i]
    refine Goes.step rfl rfl ?_
    rw [hload]
    refine Goes.step rfl ?_ (ih (by omega))
    have hset : (h.markedFrom x (i + 1)).setNext x i ⟨(h.next x i).node, true⟩ = h.markedFrom x i :=
      Heap.setNext_relink_bottom (by omega)
    simp only [step, hload, if_true, hset]
    rfl

/-- The memory when the value of the marked node is taken. -/
def Heap.emptied (h : Heap) (x : ℕ) : Heap := (h.markedFrom x 0).setVal x doesNotExist

/-- The links of a node that is marked on all levels. -/
theorem Heap.next_emptied (a m : ℕ) : (h.emptied x).next a m
    = if m < (h.node x).numLevels ∧ a = x then ⟨(h.next x m).node, true⟩ else h.next a m := by
  rw [Heap.emptied, Heap.next_setVal, Heap.markedFrom, Heap.next_relink]
  simp only [Nat.zero_le, true_and]

/-- Those of the other nodes. -/
theorem Heap.next_emptied_of_ne {a : ℕ} (ha : a ≠ x) (m : ℕ) :
    (h.emptied x).next a m = h.next a m := by
  rw [Heap.next_emptied, if_neg fun hc => ha hc.2]

/-- The keys are as they were. -/
@[simp] theorem Heap.key_emptied (a : ℕ) : ((h.emptied x).node a).key = (h.node a).key :=
  Heap.key_setVal ..

/-- The memory when the levels of the node from `i` on are unlinked. -/
def Heap.unlinkedFrom (h : Heap) (lo hi : List ℕ) (x i : ℕ) : Heap :=
  (h.emptied x).relink (fun m => (h.shape.above m lo).getLastD 0) (fun m => ⟨(h.shape.above m hi).head?, false⟩)
    i (h.node x).numLevels

/-- The links when a node is unlinked from the top down. -/
theorem Heap.next_unlinkedFrom (i a m : ℕ) : (h.unlinkedFrom lo hi x i).next a m
    = if i ≤ m ∧ m < (h.node x).numLevels ∧ a = (h.shape.above m lo).getLastD 0
      then ⟨(h.shape.above m hi).head?, false⟩ else (h.emptied x).next a m :=
  Heap.next_relink ..

/-- The keys are as they were. -/
theorem Heap.key_unlinkedFrom (i a : ℕ) :
    ((h.unlinkedFrom lo hi x i).node a).key = (h.node a).key :=
  Heap.key_setVal ..

/-- Above the node there is nothing to unlink. -/
theorem Heap.unlinkedFrom_of_le {i : ℕ} (hle : (h.node x).numLevels ≤ i) :
    h.unlinkedFrom lo hi x (i + 1) = h.unlinkedFrom lo hi x i := by
  refine Heap.ext_next rfl rfl rfl (fun _ => rfl) (fun _ => rfl) (fun _ => rfl) fun a m => ?_
  rw [Heap.next_unlinkedFrom, Heap.next_unlinkedFrom, if_neg (by omega), if_neg (by omega)]

section Level

variable {c : Caller} {f : Find} {level : ℕ}

/-- The nodes that are not unlinked stand as they stood. -/
theorem next_level (ht : h.Towers rank (lo ++ x :: hi)) {a : ℕ} (ha : a ∈ 0 :: (lo ++ hi)) :
    (h.unlinkedFrom lo hi x (level + 1)).next a level = h.next a level := by
  rw [Heap.next_unlinkedFrom, if_neg (by omega), Heap.next_emptied_of_ne (ht.shape.ne_parts a ha)]

/-- A level of the search that unlinks: the level holds the node. -/
theorem goes_force_level (ht : h.Towers rank (lo ++ x :: hi)) (hforce : c.unlink = .force)
    (hlo : ∀ a ∈ lo, keyDiff (h.node a).key c.key < 0)
    (hhi : ∀ b ∈ (h.shape.above level hi).head?, 0 < keyDiff (h.node b).key c.key) (hn : c.n = 0)
    (hpred : f.pred = (h.shape.above (level + 1) lo).getLastD 0) :
    ∃ f', f'.pred = (h.shape.above level lo).getLastD 0 ∧
      GoesTo z (h.unlinkedFrom lo hi x (level + 1)) (descend c f (level + 1))
        (h.unlinkedFrom lo hi x level) (descend c f' level) := by
  set g := h.unlinkedFrom lo hi x (level + 1) with hg
  have hlinks := ht.shape.links level
  rw [above_append] at hlinks
  obtain ⟨back, hrest, hback, hlast⟩ :=
    hlinks.rest fun b (hb : b ∈ h.shape.above (level + 1) lo) => mem_above_of_succ hb
  rw [← hpred] at hrest hlast
  have hback_lo : ∀ a ∈ back, a ∈ lo := fun a ha => (mem_above.mp (hback a ha)).1
  -- the memory at this level is still that before the search, but for the mark of the node
  have hsucc : ∀ a, g.shape.succ level a = h.shape.succ level a := by
    intro a
    show (g.next a level).node = (h.next a level).node
    rw [hg, Heap.next_unlinkedFrom, if_neg (by omega), Heap.next_emptied]
    split_ifs with hc
    · rw [hc.2]
    · rfl
  have hmark : ∀ a ∈ 0 :: (lo ++ hi), (g.next a level).mark = false := by
    intro a ha
    rw [hg, next_level ht ha]
    refine ht.unmarked a ?_ level
    simp only [List.mem_cons, List.mem_append] at ha ⊢
    tauto
  have hkey : ∀ a, (g.node a).key = (h.node a).key := Heap.key_unlinkedFrom (level + 1)
  have hrest' : Links (g.shape.succ level) f.pred (back ++ h.shape.above level (x :: hi)) :=
    hrest.congr fun a _ => hsucc a
  have hpmem : f.pred ∈ 0 :: (lo ++ hi) := by
    rw [hpred]
    exact List.mem_append_left hi (mem_of_mem_above (getLastD_mem 0 (h.shape.above (level + 1) lo)))
  have hqmem : (h.shape.above level lo).getLastD 0 ∈ 0 :: (lo ++ hi) :=
    List.mem_append_left hi (mem_of_mem_above (getLastD_mem 0 (h.shape.above level lo)))
  have hnext : g.next f.pred level = ⟨(back ++ h.shape.above level (x :: hi)).head?, false⟩ :=
    next_of_unmarked (hmark f.pred hpmem) hrest'.next_eq
  by_cases hskip : (back ++ h.shape.above level (x :: hi)).head? = none
  · -- nothing is left of this level
    obtain ⟨hback0, hhi0⟩ := List.append_eq_nil_iff.mp (List.head?_eq_none_iff.mp hskip)
    have hle : (h.node x).numLevels ≤ level := by
      by_contra hlt
      rw [above_cons_of_lt hi (not_le.mp hlt)] at hhi0
      cases hhi0
    refine ⟨{ f with level := level }, ?_, Goes.step rfl ?_ (Goes.refl _)⟩
    · rw [hlast, hback0]
      rfl
    · have hcond : g.next f.pred level = ⟨none, false⟩ ∧ c.n ≤ level := by
        rw [hnext, hskip, hn]
        exact ⟨rfl, Nat.zero_le level⟩
      rw [← Heap.unlinkedFrom_of_le hle, ← hg]
      show step g (.findPred c { f with level := level }) .resume = _
      simp only [step, if_pos hcond]
  · have hstep : step g (.findPred c { f with level := level }) .resume
        = some (g, visit c { f with level := level } (back ++ h.shape.above level (x :: hi)).head?) := by
      have hcond : ¬ (g.next f.pred level = ⟨none, false⟩ ∧ c.n ≤ level) := by
        rintro ⟨hnone, -⟩
        rw [hnext] at hnone
        exact hskip (congrArg Link.node hnone)
      simp only [step]
      rw [if_neg hcond, hnext]
      rfl
    obtain ⟨d₁, hg₁⟩ := goes_prefix (z := z) (c := c) (f := { f with level := level }) hrest'
      (fun a ha => hmark a (by simp [hback_lo a ha]))
      (fun a ha => by rw [hkey]; exact hlo a (hback_lo a ha))
    rw [← hlast] at hg₁
    -- behind the node
    have hstop : ∀ g' : Heap, (∀ a, (g'.node a).key = (h.node a).key) →
        (∀ b ∈ hi, (g'.next b level).mark = false) → ∃ f', f'.pred = (h.shape.above level lo).getLastD 0 ∧
        GoesTo z g' (visit c { f with
            level := level, pred := (h.shape.above level lo).getLastD 0, d := d₁ } (h.shape.above level hi).head?)
          g' (descend c f' level) := by
      intro g' hkey' hmark'
      obtain ⟨d, -, hg₂⟩ := goes_stop (z := z) (c := c) (h := g')
        (f := { f with level := level, pred := (h.shape.above level lo).getLastD 0, d := d₁ })
        (fun b hb => hmark' b (mem_above.mp hb).1)
        (fun b hb => Or.inl (by rw [hkey']; exact hhi b hb))
      exact ⟨_, rfl, hg₂⟩
    by_cases hlevel : level < (h.node x).numLevels
    · rw [above_cons_of_lt hi hlevel] at hg₁ hstep
      have hxnext : g.next x level = ⟨(h.shape.above level hi).head?, true⟩ := by
        rw [above_cons_of_lt hi hlevel] at hlinks
        rw [hg, Heap.next_unlinkedFrom, if_neg (by omega), Heap.next_emptied,
          if_pos ⟨hlevel, rfl⟩]
        exact congrArg (Link.mk · true) hlinks.suffix.2.next_eq
      have hother : g.next ((h.shape.above level lo).getLastD 0) level = ⟨some x, false⟩ := by
        refine next_of_unmarked (hmark _ hqmem) ?_
        rw [above_cons_of_lt hi hlevel] at hlinks
        rw [hsucc]
        exact hlinks.suffix.1
      have hset : g.setNext ((h.shape.above level lo).getLastD 0) level ⟨(h.shape.above level hi).head?, false⟩
          = h.unlinkedFrom lo hi x level :=
        Heap.setNext_relink_bottom hlevel
      obtain ⟨f', hf', hg₃⟩ := hstop (h.unlinkedFrom lo hi x level) (Heap.key_unlinkedFrom level) (by
        intro b hb
        rw [Heap.next_unlinkedFrom]
        split_ifs
        · rfl
        · rw [Heap.next_emptied_of_ne (ht.shape.ne_parts b (by simp [hb]))]
          exact ht.unmarked b (by simp [hb]) level)
      refine ⟨f', hf', Goes.step rfl hstep (hg₁.trans (Goes.step rfl rfl ?_))⟩
      have hexam : ∀ f' next, examine c f' x ⟨next, true⟩ = .findUnlink c f' x ⟨next, true⟩ := by
        intro f' next
        simp [examine, hforce]
      rw [hxnext, hexam]
      refine Goes.step rfl ?_ hg₃
      simp only [step]
      rw [if_pos hother, hset]
    · rw [above_cons_of_le hi (not_lt.mp hlevel)] at hg₁ hstep
      obtain ⟨f', hf', hg₃⟩ := hstop g hkey fun b hb => hmark b (by simp [hb])
      rw [← Heap.unlinkedFrom_of_le (not_lt.mp hlevel), ← hg]
      exact ⟨f', hf', Goes.step rfl hstep (hg₁.trans hg₃)⟩

/-- **The search that unlinks** takes the node out of every level. -/
theorem goes_force (path : Path) (ht : h.Towers rank (lo ++ x :: hi)) (hforce : c.unlink = .force)
    (hlo : ∀ a ∈ lo, keyDiff (h.node a).key c.key < 0)
    (hhi : ∀ level, ∀ b ∈ (h.shape.above level hi).head?, 0 < keyDiff (h.node b).key c.key)
    (hn : c.n = 0) : ∃ f', GoesTo z (h.emptied x) (.findStart c path) (h.unlinkedFrom lo hi x 0)
      (descend c f' 0) := by
  have hheights : ∀ a ∈ lo ++ x :: hi, (h.node a).numLevels ≤ h.highWater :=
    fun a ha => (ht.shape.heights a ha).2
  have hstart : h.unlinkedFrom lo hi x h.highWater = h.emptied x := by
    refine Heap.ext_next rfl rfl rfl (fun _ => rfl) (fun _ => rfl) (fun _ => rfl) fun a m => ?_
    have hx := hheights x (by simp)
    rw [Heap.next_unlinkedFrom, if_neg (by omega)]
  have hloop : ∀ level f, f.pred = (h.shape.above level lo).getLastD 0 →
      ∃ f', GoesTo z (h.unlinkedFrom lo hi x level) (descend c f level)
        (h.unlinkedFrom lo hi x 0) (descend c f' 0) := by
    intro level
    induction level with
    | zero => exact fun f _ => ⟨f, Goes.refl _⟩
    | succ level ih =>
      intro f hf
      obtain ⟨f₁, hf₁, hg₁⟩ := goes_force_level (z := z) ht hforce hlo (hhi level) hn hf
      obtain ⟨f', hg'⟩ := ih f₁ hf₁
      exact ⟨f', hg₁.trans hg'⟩
  obtain ⟨f', hg⟩ := hloop h.highWater ⟨0, none, 0, 0, path⟩ (by
    rw [above_eq_nil fun a ha => hheights a (List.mem_append_left _ ha)]
    rfl)
  rw [hstart] at hg
  exact ⟨f', Goes.step rfl rfl hg⟩

end Level

/-- The memory that the removal of `x` leaves. -/
def Heap.removed (h : Heap) (lo hi : List ℕ) (x : ℕ) : Heap :=
  { h.unlinkedFrom lo hi x 0 with handed := h.handed ++ [x] }

/-- The removal of a node, from the found node to the return. -/
theorem goes_remove (key : ℕ) (ht : h.Towers rank (lo ++ x :: hi))
    (hlo : ∀ a ∈ lo, keyDiff (h.node a).key key < 0)
    (hhi : ∀ level, ∀ b ∈ (h.shape.above level hi).head?, 0 < keyDiff (h.node b).key key) :
    GoesTo z h (.removeLevels key x) (h.removed lo hi x) (.returned (h.node x).val) := by
  have hmark : ∀ m, (h.next x m).mark = false := ht.unmarked x (by simp)
  have hstart : h.markedFrom x (h.node x).numLevels = h := Heap.relink_self _
  have hmarks := goes_markLevel (z := z) key hmark le_rfl
  rw [hstart] at hmarks
  obtain ⟨f, hforce⟩ := goes_force (z := z) (c := .unlinkRemoved key x (h.node x).val) Path.empty ht
    rfl hlo hhi rfl
  refine Goes.step rfl rfl (hmarks.trans (Goes.step rfl rfl ?_))
  exact hforce.trans (Goes.step rfl rfl (Goes.refl _))

end Removal

/-! ## The calls -/

section Calls

variable {z : ℕ} {rank : ℕ ↪ ℤ} {h : Heap} {m : List (ℕ × ℕ)} {lo hi : List ℕ} {k x : ℕ}

/-- A call that goes to its return is run to its end by some fuel. -/
theorem execOp_of_goes {h' : Heap} {op : Op} {pc : Pc} {v : ℕ}
    (hcall : step h (.returned doesNotExist) (.call op) = some (h, pc))
    (hg : GoesTo z h pc h' (.returned v)) :
    ∃ fuel, ∀ fuel' ≥ fuel, execOp fuel' z h op = some (v, h') := by
  obtain ⟨fuel, hfuel⟩ := hg.finish rfl
  refine ⟨fuel, fun fuel' hf => ?_⟩
  simp only [execOp, hcall, hfuel fuel' hf]

/-- The searches for `k` make no wrong comparison: they compare the nodes before the place of
the key and, at every level that the key is not on, the first one behind; a search that
`unlinks` the key compares that of every level. -/
def Heap.Sees (rank : ℕ ↪ ℤ) (h : Heap) (xs : List ℕ) (k : ℕ) (unlinks : Bool) : Prop :=
  ∃ lo hi first, Sight rank (fun a => (h.node a).key) k first lo hi
    ∧ ((xs = lo ++ hi ∧ ∀ level, ∀ b ∈ (h.shape.above level hi).head?, first b)
      ∨ ∃ x, (h.node x).key = k ∧ xs = lo ++ x :: hi ∧
        ∀ level, unlinks = true ∨ (h.node x).numLevels ≤ level →
          ∀ b ∈ (h.shape.above level hi).head?, first b)

/-- A search finds its way through towers in order. -/
theorem Heap.Towers.sees {xs : List ℕ} (unlinks : Bool) (ht : h.Towers rank xs)
    (hord : ∀ p ∈ h.shape.entries xs, Agrees rank p.1 k) : h.Sees rank xs k unlinks := by
  obtain ⟨lo, hi, hp, hxs⟩ := exists_place (fun a => (h.node a).key) ht.shape.sorted fun a ha =>
    hord ((h.node a).key, (h.node a).val) (List.mem_map_of_mem ha)
  have hfirst : ∀ level, ∀ b ∈ (h.shape.above level hi).head?, b ∈ hi :=
    fun level b hb => (mem_above.mp (List.mem_of_mem_head? hb)).1
  refine ⟨lo, hi, (· ∈ hi), hp.sight fun b hb => hb, ?_⟩
  rcases hxs with hxs | ⟨x, hx, hxs⟩
  · exact Or.inl ⟨hxs, hfirst⟩
  · exact Or.inr ⟨x, hx, hxs, fun level _ => hfirst level⟩

/-- The search for a key that is not there. -/
theorem goes_absent (c : Caller) {first : ℕ → Prop} (ht : h.Towers rank (lo ++ hi))
    (hforce : c.unlink ≠ .force) (hp : Sight rank (fun a => (h.node a).key) c.key first lo hi)
    (hfirst : ∀ level, ∀ b ∈ (h.shape.above level hi).head?, first b) :
    ∃ path, Recorded c h lo hi path ∧ GoesTo z h (search c) h (resume c path none) := by
  obtain ⟨path, hrec, hg⟩ := goes_search (z := z) Path.empty ht hforce hp.below_diff
    fun level b hb => (hp.first_diff b (hfirst level b hb)).le
  refine ⟨path, hrec, ?_⟩
  have hbottom : h.shape.above 0 hi = hi :=
    above_zero fun a ha => (ht.shape.heights a (List.mem_append_right lo ha)).1
  have hnone : (hi.head?.filter fun b => keyDiff (h.node b).key c.key = 0) = none := by
    cases hi with
    | nil => rfl
    | cons b hi =>
      have hd := (hp.first_diff b (hfirst 0 b (by rw [hbottom]; rfl))).ne'
      simp [Option.filter, hd]
  rwa [hnone] at hg

/-- The search for a key that is there. -/
theorem goes_present (c : Caller) {first : ℕ → Prop} (ht : h.Towers rank (lo ++ x :: hi))
    (hforce : c.unlink ≠ .force) (hx : (h.node x).key = c.key)
    (hp : Sight rank (fun a => (h.node a).key) c.key first lo hi)
    (hfirst : ∀ level, (h.node x).numLevels ≤ level →
      ∀ b ∈ (h.shape.above level hi).head?, first b) :
    ∃ path, GoesTo z h (search c) h (resume c path (some x)) := by
  have hd : keyDiff (h.node x).key c.key = 0 := hx ▸ keyDiff_self c.key
  obtain ⟨path, -, hg⟩ := goes_search (z := z) Path.empty ht hforce hp.below_diff (by
    intro level b hb
    by_cases hlevel : level < (h.node x).numLevels
    · rw [above_cons_of_lt hi hlevel] at hb
      obtain rfl : x = b := Option.some.inj hb
      exact hd.ge
    · rw [above_cons_of_le hi (not_lt.mp hlevel)] at hb
      exact (hp.first_diff b (hfirst level (not_lt.mp hlevel) b hb)).le)
  refine ⟨path, ?_⟩
  have hsome : ((x :: hi).head?.filter fun b => keyDiff (h.node b).key c.key = 0) = some x := by
    simp [Option.filter, hd]
  rwa [hsome] at hg

/-- `random_levels`: the height is at least one and at most `high_water`. -/
theorem goes_random {xs : List ℕ} (args : Cas) (hz : z < 32) (ht : h.Towers rank xs) :
    ∃ h₁ n, h₁.Towers rank xs ∧ h₁.node = h.node ∧ h₁.view 0 = h.view 0 ∧ 0 < n ∧ n ≤ h₁.highWater
      ∧ GoesTo z h (.casRandom args) h₁ (search (.cas args n)) := by
  have hwater := ht.water
  simp only [maxLevels] at hwater
  by_cases h0 : 2 * z / 3 = 0
  · refine ⟨h, 1, ht, rfl, rfl, Nat.one_pos, hwater.1, Goes.step rfl ?_ (Goes.refl _)⟩
    simp only [step, if_pos hz, if_pos h0]
  · by_cases hraise : h.highWater < 2 * z / 3
    · have hlt : h.highWater < maxLevels := by
        simp only [maxLevels]
        omega
      refine ⟨{ h with highWater := h.highWater + 1 }, min (h.highWater + 1) maxLevels,
        ht.raise hlt, rfl, rfl, ?_, min_le_left _ _, ?_⟩
      · simp only [maxLevels]
        omega
      · refine Goes.step rfl (by simp only [step, if_pos hz, if_neg h0]; rfl) ?_
        refine Goes.step rfl (by simp only [step, if_pos hraise]; rfl) ?_
        exact Goes.step rfl rfl (Goes.refl _)
    · refine ⟨h, min (2 * z / 3) maxLevels, ht, rfl, rfl, ?_, ?_, ?_⟩
      · simp only [maxLevels]
        omega
      · exact (min_le_left _ _).trans (not_lt.mp hraise)
      · refine Goes.step rfl (by simp only [step, if_pos hz, if_neg h0]; rfl) ?_
        refine Goes.step rfl ?_ (Goes.refl _)
        simp only [step, if_neg hraise]

/-- A call of one of the three functions refines the call of the map. -/
def OpRefines (rank : ℕ ↪ ℤ) (z : ℕ) (h : Heap) (m : List (ℕ × ℕ)) (op : Op) (c : Map.Call) :
    Prop :=
  ∃ fuel h', (∀ fuel' ≥ fuel, execOp fuel' z h op = some ((looseCall rank m c).1, h'))
    ∧ h'.Refines rank (looseCall rank m c).2

/-- A call on the towers `xs`, with what it does to the lowest level. -/
def OpChanges (rank : ℕ ↪ ℤ) (z : ℕ) (h : Heap) (xs : List ℕ) (op : Op) (c : Map.Call) : Prop :=
  ∃ fuel h' xs',
    (∀ fuel' ≥ fuel, execOp fuel' z h op = some ((looseCall rank (h.shape.entries xs) c).1, h'))
    ∧ h'.Towers rank xs' ∧ h'.shape.entries xs' = (looseCall rank (h.shape.entries xs) c).2
    ∧ Change (h.view 0) (h'.view 0) xs xs'

/-- A call that changes the heap as the map. -/
theorem OpChanges.refines {op : Op} {c : Map.Call} {xs : List ℕ}
    (h' : OpChanges rank z h xs op c) : OpRefines rank z h (h.shape.entries xs) op c := by
  obtain ⟨fuel, h', xs', hexec, ht, hentries, -⟩ := h'
  exact ⟨fuel, h', hexec, xs', ht, hentries.symm⟩

/-- A call that runs to its end. -/
theorem opChanges_of_goes {op : Op} {c : Map.Call} {h' : Heap} {pc : Pc} {v : ℕ} {xs xs' : List ℕ}
    (hcall : step h (.returned doesNotExist) (.call op) = some (h, pc))
    (hg : GoesTo z h pc h' (.returned v)) (hv : (looseCall rank (h.shape.entries xs) c).1 = v)
    (ht : h'.Towers rank xs')
    (hentries : h'.shape.entries xs' = (looseCall rank (h.shape.entries xs) c).2)
    (hchange : Change (h.view 0) (h'.view 0) xs xs') : OpChanges rank z h xs op c := by
  obtain ⟨fuel, hfuel⟩ := execOp_of_goes hcall hg
  exact ⟨fuel, h', xs', by rwa [hv], ht, hentries, hchange⟩

/-- The lowest level stays. -/
theorem change_of_view_eq {g : Heap} {xs : List ℕ} (hview : g.view 0 = h.view 0) :
    Change (h.view 0) (g.view 0) xs xs :=
  hview ▸ Change.same xs rfl rfl rfl rfl

/-- `sl_lookup` with a search that finds its way. -/
theorem lookup_changes_of_sees {xs : List ℕ} (ht : h.Towers rank xs)
    (hs : h.Sees rank xs k false) :
    OpChanges rank z h xs (.lookup k) (.get k) := by
  have hforce : (Caller.lookup k).unlink ≠ .force := nofun
  obtain ⟨lo, hi, first, hp, ⟨rfl, hfirst⟩ | ⟨x, hx, rfl, hfirst⟩⟩ := hs
  · have hget : get (h.shape.entries (lo ++ hi)) k = none := by
      rw [entries_append]
      exact get_absent hp.map_below hp.map_above
    obtain ⟨path, -, hg⟩ := goes_absent (z := z) (.lookup k) ht hforce hp hfirst
    exact opChanges_of_goes rfl hg (by simp [callBy, hget]) ht rfl (change_of_view_eq rfl)
  · have hget : get (h.shape.entries (lo ++ x :: hi)) k = some (h.node x).val := by
      rw [entries_present hx]
      exact get_present hp.map_below _
    obtain ⟨path, hg⟩ := goes_present (z := z) (.lookup k) ht hforce hx hp
      fun level hl => hfirst level (Or.inr hl)
    refine opChanges_of_goes rfl (hg.trans (Goes.step rfl rfl (Goes.refl _))) ?_ ht rfl
      (change_of_view_eq rfl)
    simp [callBy, hget]

/-- `sl_lookup` changes nothing. -/
theorem lookup_changes {xs : List ℕ} (ht : h.Towers rank xs)
    (hord : (Map.Call.get k).Ordered rank (h.shape.entries xs)) :
    OpChanges rank z h xs (.lookup k) (.get k) :=
  lookup_changes_of_sees ht (ht.sees false (hord k rfl))

/-- **`sl_lookup`** returns the value of the key. -/
theorem lookup_refines (hR : h.Refines rank m) (hord : (Map.Call.get k).Ordered rank m) :
    OpRefines rank z h m (.lookup k) (.get k) := by
  obtain ⟨xs, ht, rfl⟩ := hR
  exact (lookup_changes ht hord).refines

/-- The whole chain is that of the lowest level. -/
theorem Heap.Towers.above_zero {xs ys : List ℕ} (ht : h.Towers rank xs) (hys : ∀ a ∈ ys, a ∈ xs) :
    h.shape.above 0 ys = ys :=
  Tower.above_zero fun a ha => (ht.shape.heights a (hys a ha)).1

/-- A tower comes in. -/
theorem Heap.Towers.change_insert {h' : Heap} {n : ℕ} (ht : h.Towers rank (lo ++ hi)) (hn : 0 < n)
    (hbrk : h'.brk = h.brk + 1)
    (hsame : ∀ a, a ≠ h.brk → (h'.node a).key = (h.node a).key ∧ (h'.node a).val = (h.node a).val
      ∧ (h'.node a).numLevels = (h.node a).numLevels)
    (hnew : ∀ l, h'.next h.brk l = ⟨if l < n then (h.shape.above l hi).head? else none, false⟩)
    (hnext : ∀ a l, a ≠ h.brk → h'.next a l
      = if l < n ∧ a = (h.shape.above l lo).getLastD 0 then ⟨some h.brk, false⟩ else h.next a l) :
    Change (h.view 0) (h'.view 0) (lo ++ hi) (lo ++ h.brk :: hi) := by
  have hlo : h.shape.above 0 lo = lo := ht.above_zero fun a ha => by simp [ha]
  have hhi : h.shape.above 0 hi = hi := ht.above_zero fun a ha => by simp [ha]
  have hpred := (ht.pred 0).2
  rw [hlo] at hpred
  refine Change.insert lo hi ?_ hbrk fun a ha => ⟨(hsame a ha).1, ?_, ?_⟩
  · show (h'.next h.brk 0).node = _
    rw [hnew, if_pos hn, hhi]
  · show (h'.next a 0).mark = (h.next a 0).mark
    rw [hnext a 0 ha, hlo]
    split_ifs with hap
    · rw [hap.2, hpred]
    · rfl
  · show (h'.next a 0).node = if a = lo.getLastD 0 then some h.brk else (h.next a 0).node
    rw [hnext a 0 ha, hlo]
    simp only [hn, true_and]
    split_ifs <;> rfl

/-- The insertion of a key that is not there. -/
theorem insert_towers {args : Cas} {n : ℕ} {path : Path} (ht : h.Towers rank (lo ++ hi))
    (hlo : ∀ a ∈ lo, rank (h.node a).key < rank args.key)
    (hhi : ∀ a ∈ hi, rank args.key < rank (h.node a).key) (hv : args.new ≠ doesNotExist)
    (hn : 0 < n) (hnw : n ≤ h.highWater) (hrec : Recorded (.cas args n) h lo hi path) :
    ∃ h', h'.Towers rank (lo ++ h.brk :: hi)
      ∧ h'.shape.entries (lo ++ h.brk :: hi) = h.shape.entries lo ++ (args.key, args.new) :: h.shape.entries hi
      ∧ Change (h.view 0) (h'.view 0) (lo ++ hi) (lo ++ h.brk :: hi)
      ∧ GoesTo z h (.casAlloc args n path) h' (.returned doesNotExist) := by
  have hpreds : ∀ l, l < n → path.preds l = (h.shape.above l lo).getLastD 0 :=
    fun l hl => hrec.preds l hl (lt_of_lt_of_le hl hnw)
  have hsuccs : ∀ l, l < n → path.succs l = (h.shape.above l hi).head? :=
    fun l hl => hrec.succs l hl (lt_of_lt_of_le hl hnw)
  have hfit : ∀ l, l < n → path.preds l ≠ h.brk
      ∧ h.next (path.preds l) l = ⟨path.succs l, false⟩ := by
    intro l hl
    rw [hpreds l hl, hsuccs l hl]
    exact ⟨(ht.pred l).1.ne, (ht.pred l).2⟩
  have hgo : GoesTo z h (.casAlloc args n path) _ (.returned doesNotExist) := goes_insert hn hfit
  set g := h.alloc args n path.succs
  set h' := g.linkedBelow ⟨h.brk, n, path⟩ n
  have hne : ∀ l, h.brk ≠ (h.shape.above l lo).getLastD 0 := fun l => (ht.pred l).1.ne'
  have hbrk : g.node h.brk = _ := Heap.node_alloc_brk h args n path.succs
  have hnew : ∀ l, h'.next h.brk l = ⟨if l < n then (h.shape.above l hi).head? else none, false⟩ := by
    intro l
    show Heap.next (g.relink _ _ 0 n) h.brk l = _
    have hcond : ¬ (0 ≤ l ∧ l < n ∧ h.brk = path.preds l) :=
      fun hc => hne l (hc.2.2.trans (hpreds l hc.2.1))
    rw [Heap.next_relink, if_neg hcond, Heap.next, hbrk]
    by_cases hl : l < n
    · simp only [if_pos hl, hsuccs l hl]
    · simp only [if_neg hl]
  have hsame : ∀ a, a ≠ h.brk → (h'.node a).key = (h.node a).key ∧ (h'.node a).val = (h.node a).val
      ∧ (h'.node a).numLevels = (h.node a).numLevels := by
    intro a ha
    have hnode : g.node a = h.node a := Heap.node_alloc_of_ne h ha
    show (g.node a).key = _ ∧ (g.node a).val = _ ∧ (g.node a).numLevels = _
    rw [hnode]
    exact ⟨rfl, rfl, rfl⟩
  have hnext : ∀ a l, a ≠ h.brk → h'.next a l
      = if l < n ∧ a = (h.shape.above l lo).getLastD 0 then ⟨some h.brk, false⟩ else h.next a l := by
    intro a l ha
    show Heap.next (g.relink _ _ 0 n) a l = _
    rw [Heap.next_relink]
    have hold : g.next a l = h.next a l := by
      rw [Heap.next, Heap.node_alloc_of_ne h ha]
      rfl
    by_cases hl : l < n
    · simp only [Nat.zero_le, hl, true_and, hpreds l hl, hold]
    · simp only [hl, false_and, and_false, if_false, hold]
  obtain ⟨ht', hentries⟩ := ht.insert hlo hhi h' hv hn hnw rfl rfl
    (congrArg Node.key hbrk) (congrArg Node.val hbrk) (congrArg Node.numLevels hbrk) hnew hsame hnext
  exact ⟨h', ht', hentries, ht.change_insert hn rfl hsame hnew hnext, hgo⟩

/-- A store of a value leaves the links. -/
theorem Heap.view_setVal (h : Heap) (a v : ℕ) : (h.setVal a v).view 0 = h.view 0 := by
  simp only [Heap.view, Heap.shape, Heap.next_setVal, Heap.key_setVal, Heap.brk_setVal]

/-- A heap with the same nodes. -/
theorem Heap.Sees.congr {g : Heap} {xs : List ℕ} {unlinks : Bool} (hs : h.Sees rank xs k unlinks)
    (hnode : g.node = h.node) : g.Sees rank xs k unlinks := by
  have habove : ∀ level ys, g.shape.above level ys = h.shape.above level ys := fun level ys =>
    List.filter_congr fun a _ => decide_eq_decide.mpr (by simp only [Heap.shape, hnode])
  simpa only [Heap.Sees, habove, hnode] using hs

/-- `sl_cas` with a search that finds its way. -/
theorem cas_changes_of_sees {e v : ℕ} {xs : List ℕ} (hz : z < 32) (ht₀ : h.Towers rank xs)
    (hv : 0 < v) (hs₀ : h.Sees rank xs k false) :
    OpChanges rank z h xs (.cas ⟨k, e, v⟩) (.cas k e v) := by
  obtain ⟨h₁, n, ht, hnode, hview, hn, hnw, hrandom⟩ := goes_random ⟨k, e, v⟩ hz ht₀
  have hentries : h₁.shape.entries xs = h.shape.entries xs := by
    simp only [Shape.entries, Heap.shape, hnode]
  have hs := hs₀.congr hnode
  have hforce : (Caller.cas ⟨k, e, v⟩ n).unlink ≠ .force := nofun
  have hreturns : ∀ {h' : Heap} {u : ℕ} {xs' : List ℕ},
      GoesTo z h₁ (search (.cas ⟨k, e, v⟩ n)) h' (.returned u) →
      (looseCall rank (h₁.shape.entries xs) (.cas k e v)).1 = u → h'.Towers rank xs' →
      h'.shape.entries xs' = (looseCall rank (h₁.shape.entries xs) (.cas k e v)).2 →
      Change (h₁.view 0) (h'.view 0) xs xs' →
      OpChanges rank z h xs (.cas ⟨k, e, v⟩) (.cas k e v) := by
    rw [hentries, hview]
    exact fun hg hu ht' he hc => opChanges_of_goes rfl (hrandom.trans hg) hu ht' he hc
  obtain ⟨lo, hi, first, hp, ⟨rfl, hfirst⟩ | ⟨x, hx, rfl, hfirst⟩⟩ := hs
  · have hget : get (h₁.shape.entries (lo ++ hi)) k = none := by
      rw [entries_append]
      exact get_absent hp.map_below hp.map_above
    obtain ⟨path, hrec, hfind⟩ := goes_absent (z := z) (.cas ⟨k, e, v⟩ n) ht hforce hp hfirst
    by_cases hmet : LooselyMet e none
    · have hgo : ¬ (e ≠ expectDoesNotExist ∧ e ≠ expectWhatever) := by
        rw [looselyMet_none] at hmet
        tauto
      simp only [resume, if_neg hgo] at hfind
      obtain ⟨h', ht', hentries', hchange, hins⟩ := insert_towers (z := z) ht hp.below hp.above hv.ne' hn
        hnw hrec
      refine hreturns (hfind.trans hins) (by simp [callBy, hget]) ht' ?_ hchange
      simp only [callBy, hget, if_pos hmet]
      rw [hentries', entries_append]
      exact (put_absent hp.map_below hp.map_above v).symm
    · have hstop : e ≠ expectDoesNotExist ∧ e ≠ expectWhatever := by
        rw [looselyMet_none] at hmet
        tauto
      simp only [resume, if_pos hstop] at hfind
      refine hreturns hfind (by simp [callBy, hget]) ht ?_ (change_of_view_eq rfl)
      simp only [callBy, hget, if_neg hmet]
  · have hget : get (h₁.shape.entries (lo ++ x :: hi)) k = some (h₁.node x).val := by
      rw [entries_present hx]
      exact get_present hp.map_below _
    have hval : (h₁.node x).val ≠ doesNotExist := ht.shape.vals x (by simp)
    obtain ⟨path, hfind⟩ := goes_present (z := z) (.cas ⟨k, e, v⟩ n) ht hforce hx hp
      fun level hl => hfirst level (Or.inr hl)
    by_cases he : e = expectDoesNotExist
    · refine hreturns (u := (h₁.node x).val) (hfind.trans (Goes.step rfl ?_ (Goes.refl _)))
        (by simp [callBy, hget]) ht ?_ (change_of_view_eq rfl)
      · show step h₁ (.casVal ⟨k, e, v⟩ x) .resume = _
        simp only [step, if_neg hval, if_pos he]
      · simp only [callBy, hget]
        rw [if_neg fun hm => hm he]
    · obtain ⟨ht', hentries'⟩ := ht.update hv.ne'
      refine hreturns (u := (h₁.node x).val) (hfind.trans ?_) (by simp [callBy, hget]) ht' ?_
        (change_of_view_eq (Heap.view_setVal ..))
      · have hload : step h₁ (.casVal ⟨k, e, v⟩ x) .resume
            = some (h₁, .casUpdate ⟨k, e, v⟩ x (h₁.node x).val) := by
          simp only [step, if_neg hval, if_neg he]
        refine Goes.step rfl hload (Goes.step rfl ?_ (Goes.refl _))
        simp only [step, if_true]
      · simp only [callBy, hget]
        rw [if_pos (looselyMet_some.mpr he), hentries', entries_present hx, hx]
        exact (put_present hp.map_below hp.map_above _ v).symm

/-- `sl_cas` changes the heap as the map. -/
theorem cas_changes {e v : ℕ} {xs : List ℕ} (hz : z < 32) (ht : h.Towers rank xs) (hv : 0 < v)
    (hord : (Map.Call.cas k e v).Ordered rank (h.shape.entries xs)) :
    OpChanges rank z h xs (.cas ⟨k, e, v⟩) (.cas k e v) :=
  cas_changes_of_sees hz ht hv (ht.sees false (hord k rfl))

/-- **`sl_cas`** does what the map does. -/
theorem cas_refines {e v : ℕ} (hz : z < 32) (hR : h.Refines rank m) (hv : 0 < v)
    (hord : (Map.Call.cas k e v).Ordered rank m) :
    OpRefines rank z h m (.cas ⟨k, e, v⟩) (.cas k e v) := by
  obtain ⟨xs, ht, rfl⟩ := hR
  exact (cas_changes hz ht hv hord).refines

theorem Heap.Towers.change_remove (ht : h.Towers rank (lo ++ x :: hi))
    (hnext : ∀ a l, a ≠ x → (h.removed lo hi x).next a l
      = if l < (h.node x).numLevels ∧ a = (h.shape.above l lo).getLastD 0
        then ⟨(h.shape.above l hi).head?, false⟩ else h.next a l) :
    Change (h.view 0) ((h.removed lo hi x).view 0) (lo ++ x :: hi) (lo ++ hi) := by
  have hlo : h.shape.above 0 lo = lo := ht.above_zero fun a ha => by simp [ha]
  have hhi : h.shape.above 0 hi = hi := ht.above_zero fun a ha => by simp [ha]
  have hlevels : 0 < (h.node x).numLevels := (ht.shape.heights x (by simp)).1
  have hxpred : x ≠ lo.getLastD 0 := fun heq =>
    ht.shape.ne_parts _ (List.mem_append_left hi (getLastD_mem 0 lo)) heq.symm
  have hpmark : (h.next (lo.getLastD 0) 0).mark = false :=
    ht.unmarked _ (List.mem_append_left (x :: hi) (getLastD_mem 0 lo)) 0
  have hx : (h.removed lo hi x).next x 0 = ⟨(h.next x 0).node, true⟩ := by
    show (h.unlinkedFrom lo hi x 0).next x 0 = _
    rw [Heap.next_unlinkedFrom, hlo, if_neg fun hc => hxpred hc.2.2, Heap.next_emptied,
      if_pos ⟨hlevels, rfl⟩]
  refine Change.remove lo hi x rfl (congrArg Link.mark hx) fun a =>
    ⟨?_, fun ha => ?_, ?_⟩
  · show ((h.unlinkedFrom lo hi x 0).node a).key = _
    exact Heap.key_unlinkedFrom ..
  · show ((h.removed lo hi x).next a 0).mark = (h.next a 0).mark
    rw [hnext a 0 ha, hlo]
    split_ifs with hap
    · rw [hap.2, hpmark]
    · rfl
  · show ((h.removed lo hi x).next a 0).node
      = if a = lo.getLastD 0 then hi.head? else (h.next a 0).node
    by_cases ha : a = x
    · subst ha
      rw [hx, if_neg hxpred]
    · rw [hnext a 0 ha, hlo, hhi]
      simp only [hlevels, true_and]
      split_ifs <;> rfl

theorem remove_changes_of_sees {xs : List ℕ} (ht : h.Towers rank xs)
    (hs : h.Sees rank xs k true) :
    OpChanges rank z h xs (.remove k) (.remove k) := by
  have hforce : (Caller.remove k h.highWater).unlink ≠ .force := nofun
  obtain ⟨lo, hi, first, hp, ⟨rfl, hfirst⟩ | ⟨x, hx, rfl, hfirst⟩⟩ := hs
  · have hget : get (h.shape.entries (lo ++ hi)) k = none := by
      rw [entries_append]
      exact get_absent hp.map_below hp.map_above
    obtain ⟨path, -, hg⟩ := goes_absent (z := z) (.remove k h.highWater) ht hforce hp hfirst
    refine opChanges_of_goes rfl (Goes.step rfl rfl hg) (by simp [callBy, hget]) ht ?_
      (change_of_view_eq rfl)
    simp only [callBy, entries_append]
    exact (erase_absent hp.map_below hp.map_above).symm
  · have hget : get (h.shape.entries (lo ++ x :: hi)) k = some (h.node x).val := by
      rw [entries_present hx]
      exact get_present hp.map_below _
    obtain ⟨path, hg⟩ := goes_present (z := z) (.remove k h.highWater) ht hforce hx hp
      fun level _ => hfirst level (Or.inl rfl)
    have hsame : ∀ a, a ≠ x → ((h.removed lo hi x).node a).key = (h.node a).key
        ∧ ((h.removed lo hi x).node a).val = (h.node a).val
        ∧ ((h.removed lo hi x).node a).numLevels = (h.node a).numLevels := by
      intro a ha
      refine ⟨Heap.key_setVal .., ?_, Heap.numLevels_setVal ..⟩
      exact (Heap.val_setVal ..).trans (if_neg ha)
    have hnext : ∀ a l, a ≠ x → (h.removed lo hi x).next a l
        = if l < (h.node x).numLevels ∧ a = (h.shape.above l lo).getLastD 0
          then ⟨(h.shape.above l hi).head?, false⟩ else h.next a l := by
      intro a l ha
      show (h.unlinkedFrom lo hi x 0).next a l = _
      rw [Heap.next_unlinkedFrom, Heap.next_emptied_of_ne ha]
      simp only [Nat.zero_le, true_and]
    obtain ⟨ht', hentries⟩ := ht.remove (h.removed lo hi x) rfl rfl hsame hnext
    refine opChanges_of_goes (v := (h.node x).val) rfl
      (Goes.step rfl rfl (hg.trans (goes_remove k ht hp.below_diff
        fun level b hb => hp.first_diff b (hfirst level (Or.inl rfl) b hb))))
      (by simp [callBy, hget]) ht' ?_ (ht.change_remove hnext)
    rw [hentries]
    simp only [callBy]
    rw [entries_present hx]
    exact (erase_present hp.map_below hp.map_above _).symm

theorem remove_changes {xs : List ℕ} (ht : h.Towers rank xs)
    (hord : (Map.Call.remove k).Ordered rank (h.shape.entries xs)) :
    OpChanges rank z h xs (.remove k) (.remove k) :=
  remove_changes_of_sees ht (ht.sees true (hord k rfl))

theorem remove_refines (hR : h.Refines rank m) (hord : (Map.Call.remove k).Ordered rank m) :
    OpRefines rank z h m (.remove k) (.remove k) := by
  obtain ⟨xs, ht, rfl⟩ := hR
  exact (remove_changes ht hord).refines

/-- The loop of `sl_count` over the nodes `xs`. -/
theorem slCount_eq {xs : List ℕ} {p n : ℕ} (hl : Links (h.shape.succ 0) p xs)
    (hmark : ∀ a ∈ xs, (h.next a 0).mark = false) :
    ∀ fuel > xs.length, slCount h fuel (h.next p 0).node n = some (n + xs.length) := by
  induction xs generalizing p n with
  | nil =>
    intro fuel hf
    obtain ⟨fuel, rfl⟩ : ∃ f, fuel = f + 1 := ⟨fuel - 1, by omega⟩
    rw [show (h.next p 0).node = none from hl]
    rfl
  | cons a xs ih =>
    intro fuel hf
    obtain ⟨fuel, rfl⟩ : ∃ f, fuel = f + 1 := ⟨fuel - 1, by omega⟩
    rw [show (h.next p 0).node = some a from hl.1]
    simp only [slCount, hmark a List.mem_cons_self]
    have hrec := ih (n := n + 1) hl.2 (fun b hb => hmark b (List.mem_cons_of_mem a hb)) fuel
      (by simpa using hf)
    rw [List.length_cons]
    simpa [Nat.add_assoc, Nat.add_comm 1] using hrec

/-- The calls of the skiplist, with a draw of `nbd_rand` and with the keys compared as
the order says. -/
def Ok (rank : ℕ ↪ ℤ) (m : List (ℕ × ℕ)) (c : Map.Call × ℕ) : Prop :=
  c.2 < 32 ∧ c.1.Asserted ∧ c.1.Ordered rank m

/-- **Every call of the skiplist is a call of the sorted map.** -/
theorem exec_refines {c : Map.Call × ℕ} (hR : h.Refines rank m) (hok : Ok rank m c) :
    ∃ fuel h', (∀ fuel' ≥ fuel, exec fuel' h c = some ((looseCall rank m c.1).1, h'))
      ∧ h'.Refines rank (looseCall rank m c.1).2 := by
  obtain ⟨c, z⟩ := c
  obtain ⟨hz, hassert, hord⟩ := hok
  cases c with
  | get key => exact lookup_refines hR hord
  | cas key expectation new => exact cas_refines hz hR hassert.1 hord
  | remove key => exact remove_refines hR hord
  | count =>
    obtain ⟨xs, ht, rfl⟩ := hR
    refine ⟨xs.length + 1, h, fun fuel' hf => ?_, ⟨xs, ht, rfl⟩⟩
    have hlinks := ht.shape.links 0
    rw [above_zero fun a ha => (ht.shape.heights a ha).1] at hlinks
    have hcount := slCount_eq (n := 0) hlinks
      (fun a ha => ht.unmarked a (List.mem_cons_of_mem 0 ha) 0) fuel' (by omega)
    simp [exec, hcount, callBy, Shape.entries]
  | minKey =>
    obtain ⟨xs, ht, rfl⟩ := hR
    refine ⟨1, h, fun fuel' hf => ?_, ⟨xs, ht, rfl⟩⟩
    obtain ⟨fuel, rfl⟩ : ∃ f, fuel' = f + 1 := ⟨fuel' - 1, by omega⟩
    have hlinks := ht.shape.links 0
    rw [above_zero fun a ha => (ht.shape.heights a ha).1] at hlinks
    have hhead : (h.next 0 0).node = xs.head? := hlinks.next_eq
    cases xs with
    | nil => simp [exec, hhead, slMinKey, callBy, Shape.entries]
    | cons a xs =>
      have hmark := ht.unmarked a (by simp) 0
      simp [exec, hhead, slMinKey, hmark, callBy, Shape.entries, Heap.shape]

/-- The empty skiplist. -/
theorem init_refines (rank : ℕ ↪ ℤ) : init.shared.Refines rank [] := by
  refine ⟨[], ⟨⟨fun _ => rfl, by simp, ?_, List.Pairwise.nil, by simp, by simp⟩, ?_, by decide⟩, rfl⟩
  · intro a ha
    obtain rfl : a = 0 := by simpa using ha
    decide
  · intro _ _ _
    rfl

/-- **The skiplist under a sequence of calls** `f c`. -/
theorem calls_refines {ι : Type*} (f : ι → Map.Call × ℕ) {cs : List ι}
    (hok : Meets (fun m c => looseCall rank m (f c).1) (fun m c => Ok rank m (f c)) [] cs) :
    ∃ fuel h, (∀ fuel' ≥ fuel, calls (fun fuel h c => exec fuel h (f c)) fuel' init.shared cs
        = some ((specCalls (fun m c => looseCall rank m (f c).1) [] cs).1, h))
      ∧ h.Refines rank (specCalls (fun m c => looseCall rank m (f c).1) [] cs).2 :=
  calls_refine (fun _ _ c hR hc => exec_refines (c := f c) hR hc) (init_refines rank) hok

end Calls

end SkipList
