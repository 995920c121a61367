/-
# The skiplist that is not thread safe (`src/map/unsafe_skiplist.c`, integer keys)

`sl_lookup`, `sl_cas`, `sl_remove`, `sl_count` and `sl_min_key`, each call at once.

* A node is an address, address `0` is the sentinel `sl->head` and `NULL` is `none`; a
  freed node is not used again.
* `nbd_rand` is an input: `z` is the number of trailing zeros of the low word of the
  random number (`__builtin_ctz`).
* The loops run on fuel; `none` is a run that has not ended.
* `exec_refines` — every call returns what the sorted map returns, and leaves towers.
-/
import Ssr.MapCalls
import Ssr.Towers

open Map SortedMap Sequential Chain Tower

namespace UnsafeSkipList

/-! ## Nodes -/

/-- `MAX_LEVELS`. -/
def maxLevels : ℕ := 24

/-- `node_t`. -/
structure Node where
  key : ℕ
  val : ℕ
  numLevels : ℕ
  next : ℕ → Option ℕ

/-- The nodes of one skiplist with its `high_water`. -/
structure Heap where
  node : ℕ → Node
  brk : ℕ
  highWater : ℕ

namespace Heap

/-- The load of `a->next[level]`. -/
def next (h : Heap) (a level : ℕ) : Option ℕ := (h.node a).next level

/-- `a->next[level] = item`. -/
def setNext (h : Heap) (a level : ℕ) (item : Option ℕ) : Heap :=
  { h with
    node := Function.update h.node a
      { h.node a with next := Function.update (h.node a).next level item } }

/-- `a->val = v`. -/
def setVal (h : Heap) (a v : ℕ) : Heap :=
  { h with node := Function.update h.node a { h.node a with val := v } }

/-- `node_alloc` with the `next` fields that `sl_cas` sets. -/
def alloc (h : Heap) (key new n : ℕ) (succs : ℕ → Option ℕ) : Heap :=
  { h with
    node := Function.update h.node h.brk
      ⟨key, new, n, fun level => if level < n then succs level else none⟩
    brk := h.brk + 1 }

end Heap

/-- `sl_alloc`. -/
def init : Heap := ⟨fun _ => ⟨0, 0, maxLevels, fun _ => none⟩, 1, 1⟩

/-! ## `random_levels` and `find_preds` -/

/-- `random_levels`: the skiplist, and the number of levels. -/
def randomLevels (h : Heap) (z : ℕ) : Option (Heap × ℕ) :=
  if z < 32 then
    let levels := 2 * z / 3
    if levels = 0 then some (h, 1)
    else if h.highWater < levels then
      some ({ h with highWater := h.highWater + 1 }, min (h.highWater + 1) maxLevels)
    else some (h, min levels maxLevels)
  else none

/-- The locals of `find_preds`, with the arrays that the caller passed. -/
structure Find where
  pred : ℕ
  item : Option ℕ
  d : ℤ
  preds : ℕ → ℕ
  succs : ℕ → Option ℕ

/-- The loop `while (item != NULL)` of `find_preds`. -/
def searchLevel (key : ℕ) (unlink : Bool) (level : ℕ) : ℕ → Heap → Find → Option (Heap × Find)
  | 0, _, _ => none
  | fuel + 1, h, f =>
    match f.item with
    | none => some (h, f)
    | some item =>
      let next := h.next item level
      let d := keyDiff (h.node item).key key
      if 0 ≤ d then
        if d = 0 ∧ unlink = true then
          some (h.setNext f.pred level next, { f with d := d, item := next })
        else some (h, { f with d := d })
      else searchLevel key unlink level fuel h { f with d := d, pred := item, item := next }

/-- `preds[level] = pred; succs[level] = item` below level `n`. -/
def Find.record (f : Find) (n level : ℕ) : Find :=
  if level < n then
    { f with
      preds := Function.update f.preds level f.pred
      succs := Function.update f.succs level f.item }
  else f

/-- The loop of `find_preds` over the levels below `level`. -/
def searchLevels (key n : ℕ) (unlink : Bool) (fuel : ℕ) : ℕ → Heap → Find → Option (Heap × Find)
  | 0, h, f => some (h, f)
  | level + 1, h, f =>
    let next := h.next f.pred level
    if next = none ∧ n ≤ level then searchLevels key n unlink fuel level h f
    else
      match searchLevel key unlink level fuel h { f with item := next } with
      | none => none
      | some (h, f) => searchLevels key n unlink fuel level h (f.record n level)

/-- `find_preds`. -/
def findPreds (fuel : ℕ) (h : Heap) (key n : ℕ) (unlink : Bool) : Option (Heap × Find) :=
  searchLevels key n unlink fuel h.highWater h ⟨0, none, 0, fun _ => 0, fun _ => none⟩

/-- What `find_preds` returns. -/
def Find.result (f : Find) : Option ℕ := if f.d = 0 then f.item else none

/-! ## The calls -/

/-- `sl_lookup`. -/
def slLookup (fuel : ℕ) (h : Heap) (key : ℕ) : Option (ℕ × Heap) :=
  match findPreds fuel h key 0 false with
  | none => none
  | some (h, f) =>
    match f.result with
    | some item => some ((h.node item).val, h)
    | none => some (doesNotExist, h)

/-- The loop `preds[level]->next[level] = new_item` over the levels below `n`. -/
def link (newItem : ℕ) (preds : ℕ → ℕ) : ℕ → Heap → Heap
  | 0, h => h
  | n + 1, h => (link newItem preds n h).setNext (preds n) n (some newItem)

/-- `sl_cas`. -/
def slCas (fuel : ℕ) (h : Heap) (key expectation new z : ℕ) : Option (ℕ × Heap) :=
  match randomLevels h z with
  | none => none
  | some (h, n) =>
    match findPreds fuel h key n false with
    | none => none
    | some (h, f) =>
      match f.result with
      | some oldItem =>
        let oldVal := (h.node oldItem).val
        if expectation = expectDoesNotExist ∨ (expectation ≠ expectWhatever
            ∧ expectation ≠ expectExists ∧ expectation ≠ oldVal) then
          some (oldVal, h)
        else some (oldVal, h.setVal oldItem new)
      | none =>
        if expectation ≠ expectDoesNotExist ∧ expectation ≠ expectWhatever then
          some (doesNotExist, h)
        else some (doesNotExist, link h.brk f.preds n (h.alloc key new n f.succs))

/-- `sl_remove`. -/
def slRemove (fuel : ℕ) (h : Heap) (key : ℕ) : Option (ℕ × Heap) :=
  match findPreds fuel h key h.highWater false with
  | none => none
  | some (h, f) =>
    match f.result with
    | none => some (doesNotExist, h)
    | some item => (findPreds fuel h key 0 true).map fun r => ((h.node item).val, r.1)

/-- The loop of `sl_count`. -/
def slCount (h : Heap) : ℕ → Option ℕ → ℕ → Option ℕ
  | 0, _, _ => none
  | _ + 1, none, count => some count
  | fuel + 1, some item, count => slCount h fuel (h.next item 0) (count + 1)

/-- `sl_min_key`. -/
def slMinKey (h : Heap) : ℕ :=
  match h.next 0 0 with
  | some item => (h.node item).key
  | none => doesNotExist

/-- A call, with the number that `nbd_rand` draws in it. -/
def exec (fuel : ℕ) (h : Heap) (c : Map.Call × ℕ) : Option (ℕ × Heap) :=
  match c.1 with
  | .get key => slLookup fuel h key
  | .cas key expectation new => slCas fuel h key expectation new c.2
  | .remove key => slRemove fuel h key
  | .count => (slCount h fuel (h.next 0 0) 0).map fun n => (n, h)
  | .minKey => some (slMinKey h, h)

/-! ## The skiplist between two calls -/

/-- The nodes and their links. -/
def Heap.shape (h : Heap) : Shape where
  key a := (h.node a).key
  val a := (h.node a).val
  height a := (h.node a).numLevels
  succ level a := h.next a level
  brk := h.brk
  water := h.highWater

/-- The nodes of the skiplist are the towers `xs`. -/
structure Heap.Towers (rank : ℕ ↪ ℤ) (h : Heap) (xs : List ℕ) : Prop where
  shape : h.shape.Towers rank xs
  water : 0 < h.highWater ∧ h.highWater ≤ maxLevels

/-- The skiplist holds the map `m`. -/
def Heap.Refines (rank : ℕ ↪ ℤ) (h : Heap) (m : List (ℕ × ℕ)) : Prop :=
  ∃ xs, h.Towers rank xs ∧ m = h.shape.entries xs

/-! ## Stores into one link of every level -/

/-- The skiplist `g` is `h`, but at every level `m` from `i` to below `j` the link of
node `p m` is `v m`. -/
structure Stored (h g : Heap) (p : ℕ → ℕ) (v : ℕ → Option ℕ) (i j : ℕ) : Prop where
  brk : g.brk = h.brk
  water : g.highWater = h.highWater
  key : ∀ a, (g.node a).key = (h.node a).key
  val : ∀ a, (g.node a).val = (h.node a).val
  levels : ∀ a, (g.node a).numLevels = (h.node a).numLevels
  next : ∀ a m, g.next a m = if i ≤ m ∧ m < j ∧ a = p m then v m else h.next a m

section Stored

variable {h g : Heap} {p : ℕ → ℕ} {v : ℕ → Option ℕ} {i j : ℕ}

theorem Heap.next_setNext (a level : ℕ) (item : Option ℕ) (b m : ℕ) :
    (h.setNext a level item).next b m = if b = a ∧ m = level then item else h.next b m := by
  simp only [Heap.next, Heap.setNext, Function.update_apply]
  by_cases hb : b = a
  · subst hb
    by_cases hm : m = level
    · simp [hm]
    · simp [hm]
  · simp [hb]

theorem Heap.node_setNext (a level : ℕ) (item : Option ℕ) (b : ℕ) :
    ((h.setNext a level item).node b).key = (h.node b).key
      ∧ ((h.setNext a level item).node b).val = (h.node b).val
      ∧ ((h.setNext a level item).node b).numLevels = (h.node b).numLevels := by
  simp only [Heap.setNext, Function.update_apply]
  split_ifs with hb
  · subst hb
    exact ⟨rfl, rfl, rfl⟩
  · exact ⟨rfl, rfl, rfl⟩

theorem Heap.node_setVal (x v a : ℕ) : ((h.setVal x v).node a).key = (h.node a).key
    ∧ ((h.setVal x v).node a).numLevels = (h.node a).numLevels
    ∧ ((h.setVal x v).node a).next = (h.node a).next
    ∧ ((h.setVal x v).node a).val = if a = x then v else (h.node a).val := by
  simp only [Heap.setVal, Function.update_apply]
  split_ifs with ha
  · subst ha
    exact ⟨rfl, rfl, rfl, rfl⟩
  · exact ⟨rfl, rfl, rfl, rfl⟩

/-- Nothing is stored. -/
theorem Stored.nothing (hij : j ≤ i) : Stored h h p v i j :=
  ⟨rfl, rfl, fun _ => rfl, fun _ => rfl, fun _ => rfl, fun a m => by rw [if_neg (by omega)]⟩

/-- One store more, at a level that is not among the others. -/
theorem Stored.store {i' j' l : ℕ} (hs : Stored h g p v i j)
    (hl : ∀ m, i' ≤ m ∧ m < j' ↔ m = l ∨ i ≤ m ∧ m < j) :
    Stored h (g.setNext (p l) l (v l)) p v i' j' := by
  have hnode := Heap.node_setNext (h := g) (p l) l (v l)
  refine ⟨hs.brk, hs.water, fun a => (hnode a).1.trans (hs.key a),
    fun a => (hnode a).2.1.trans (hs.val a), fun a => (hnode a).2.2.trans (hs.levels a), ?_⟩
  intro a m
  rw [Heap.next_setNext, hs.next]
  have hm := hl m
  by_cases hml : m = l
  · subst hml
    by_cases ha : a = p m
    · rw [if_pos ⟨ha, rfl⟩, if_pos ⟨(hm.mpr (Or.inl rfl)).1, (hm.mpr (Or.inl rfl)).2, ha⟩]
    · rw [if_neg (by tauto), if_neg (by tauto), if_neg (by tauto)]
  · rw [if_neg (by tauto)]
    simp only [hml, false_or] at hm
    simp only [← and_assoc, hm]

end Stored

/-! ## `find_preds` -/

section Search

variable {rank : ℕ ↪ ℤ} {h : Heap} {key n : ℕ} {lo hi : List ℕ}

/-- The search of one level passes the nodes of smaller keys. -/
theorem searchLevel_pass (key : ℕ) (unlink : Bool) {level : ℕ} {front rest : List ℕ} {f : Find}
    (hl : Links (h.shape.succ level) f.pred (front ++ rest))
    (hfront : ∀ a ∈ front, keyDiff (h.node a).key key < 0) :
    ∃ d, ∀ fuel, searchLevel key unlink level (fuel + front.length) h
        { f with item := (front ++ rest).head? }
      = searchLevel key unlink level fuel h
          { f with pred := front.getLastD f.pred, item := rest.head?, d := d } := by
  induction front generalizing f with
  | nil => exact ⟨f.d, fun _ => rfl⟩
  | cons a front ih =>
    have hrest : Links (h.shape.succ level) a (front ++ rest) := hl.2
    obtain ⟨d, hd⟩ := ih (f := { f with d := keyDiff (h.node a).key key, pred := a }) hrest
      fun b hb => hfront b (List.mem_cons_of_mem a hb)
    refine ⟨d, fun fuel => ?_⟩
    have hlt := hfront a List.mem_cons_self
    have hnext : h.next a level = (front ++ rest).head? := hrest.next_eq
    rw [List.getLastD_cons, ← hd fuel, List.length_cons, ← Nat.add_assoc, ← hnext]
    show searchLevel key unlink level (fuel + front.length + 1) h { f with item := some a } = _
    simp only [searchLevel]
    rw [if_neg (not_le.mpr hlt)]

/-- The search of one level stops at a node whose key is not smaller. -/
theorem searchLevel_stop (key : ℕ) (unlink : Bool) (level : ℕ) (f : Find)
    (hstop : ∀ b ∈ f.item, 0 < keyDiff (h.node b).key key
      ∨ keyDiff (h.node b).key key = 0 ∧ unlink = false) :
    ∃ d, (∀ b ∈ f.item, d = keyDiff (h.node b).key key)
      ∧ ∀ fuel, searchLevel key unlink level (fuel + 1) h f = some (h, { f with d := d }) := by
  obtain ⟨pred, item, d₀, preds, succs⟩ := f
  cases item with
  | none => exact ⟨d₀, by simp, fun _ => rfl⟩
  | some b =>
    refine ⟨keyDiff (h.node b).key key, by simp, fun fuel => ?_⟩
    have hb := hstop b rfl
    have hgo : ¬ (keyDiff (h.node b).key key = 0 ∧ unlink = true) := by
      rintro ⟨hz, hu⟩
      rcases hb with hb | ⟨-, hb⟩
      · omega
      · exact absurd (hb.symm.trans hu) (by decide)
    simp only [searchLevel]
    rw [if_pos (by omega), if_neg hgo]

/-- What the search knows when the levels from `level` on are done: `lo` are the nodes of
smaller keys and `hi` the others. -/
structure Searched (h : Heap) (key n : ℕ) (lo hi : List ℕ) (level : ℕ) (f : Find) : Prop where
  pred : f.pred = (h.shape.above level lo).getLastD 0
  item : f.item = (h.shape.above level hi).head?
  diff : ∀ b ∈ f.item, f.d = keyDiff (h.node b).key key
  preds : ∀ l, level ≤ l → l < n → l < h.highWater →
    f.preds l = (h.shape.above l lo).getLastD 0
  succs : ∀ l, level ≤ l → l < n → l < h.highWater → f.succs l = (h.shape.above l hi).head?

/-- The search of a level is recorded. -/
theorem Searched.record {level : ℕ} {f : Find} {d : ℤ}
    (hs : Searched h key n lo hi (level + 1) f)
    (hd : ∀ b ∈ (h.shape.above level hi).head?, d = keyDiff (h.node b).key key) :
    Searched h key n lo hi level (Find.record { f with
      pred := (h.shape.above level lo).getLastD 0
      item := (h.shape.above level hi).head?
      d := d } n level) := by
  unfold Find.record
  split_ifs with hn
  · refine ⟨rfl, rfl, hd, ?_, ?_⟩
    · intro l hl hln hlw
      rcases hl.lt_or_eq with hlt | rfl
      · exact (Function.update_of_ne hlt.ne' ..).trans (hs.preds l hlt hln hlw)
      · exact Function.update_self ..
    · intro l hl hln hlw
      rcases hl.lt_or_eq with hlt | rfl
      · exact (Function.update_of_ne hlt.ne' ..).trans (hs.succs l hlt hln hlw)
      · exact Function.update_self ..
  · refine ⟨rfl, rfl, hd, ?_, ?_⟩
    · intro l hl hln
      omega
    · intro l hl hln
      omega

/-- One level of the search. -/
theorem searchLevels_step (ht : h.Towers rank (lo ++ hi))
    (hlo : ∀ a ∈ lo, keyDiff (h.node a).key key < 0)
    (hhi : ∀ b ∈ hi, 0 ≤ keyDiff (h.node b).key key) {level : ℕ} {f : Find}
    (hs : Searched h key n lo hi (level + 1) f) :
    ∃ f' need, Searched h key n lo hi level f' ∧ ∀ fuel ≥ need,
      searchLevels key n false fuel (level + 1) h f = searchLevels key n false fuel level h f' := by
  obtain ⟨back, hrest, hback, hlast⟩ := ht.shape.rest level
  rw [← hs.pred] at hrest hlast
  have hnext : h.next f.pred level = (back ++ h.shape.above level hi).head? := hrest.next_eq
  by_cases hskip : (back ++ h.shape.above level hi).head? = none ∧ n ≤ level
  · -- an empty rest above the recorded levels
    obtain ⟨hback0, hhi0⟩ := List.append_eq_nil_iff.mp (List.head?_eq_none_iff.mp hskip.1)
    have hitem : f.item = none := by
      rw [hs.item, List.head?_eq_none_iff, List.eq_nil_iff_forall_not_mem]
      intro b hb
      have hmem := mem_above_of_succ hb
      rw [hhi0] at hmem
      exact List.not_mem_nil hmem
    refine ⟨f, 0, ⟨?_, ?_, hs.diff, ?_, ?_⟩, fun fuel _ => ?_⟩
    · rw [hlast, hback0]
      rfl
    · rw [hhi0]
      exact hitem
    · intro l hl hln
      omega
    · intro l hl hln
      omega
    · simp only [searchLevels]
      rw [hnext, if_pos hskip]
  · obtain ⟨d₁, hpass⟩ := searchLevel_pass (f := f) key false hrest
      fun a ha => hlo a (hback a ha)
    rw [← hlast] at hpass
    obtain ⟨d, hd, hstop⟩ := searchLevel_stop (h := h) key false level
      { f with
        pred := (h.shape.above level lo).getLastD 0
        item := (h.shape.above level hi).head?
        d := d₁ } (by
      intro b hb
      rcases (hhi b (mem_above.mp (List.mem_of_mem_head? hb)).1).lt_or_eq with hlt | heq
      · exact Or.inl hlt
      · exact Or.inr ⟨heq.symm, rfl⟩)
    refine ⟨_, back.length + 1, hs.record hd, fun fuel hf => ?_⟩
    obtain ⟨rest, rfl⟩ : ∃ r, fuel = r + 1 + back.length := ⟨fuel - 1 - back.length, by omega⟩
    have hlevel := (hpass (rest + 1)).trans (hstop rest)
    conv_lhs => rw [searchLevels]
    rw [hnext]
    simp only [if_neg hskip, hlevel]

/-- All levels of the search. -/
theorem searchLevels_all (ht : h.Towers rank (lo ++ hi))
    (hlo : ∀ a ∈ lo, keyDiff (h.node a).key key < 0)
    (hhi : ∀ b ∈ hi, 0 ≤ keyDiff (h.node b).key key) {level : ℕ} {f : Find}
    (hs : Searched h key n lo hi level f) :
    ∃ f' need, Searched h key n lo hi 0 f' ∧ ∀ fuel ≥ need,
      searchLevels key n false fuel level h f = some (h, f') := by
  induction level generalizing f with
  | zero => exact ⟨f, 0, hs, fun _ _ => rfl⟩
  | succ level ih =>
    obtain ⟨f₁, need₁, hs₁, hgo₁⟩ := searchLevels_step ht hlo hhi hs
    obtain ⟨f', need', hs', hgo'⟩ := ih hs₁
    refine ⟨f', max need₁ need', hs', fun fuel hf => ?_⟩
    rw [hgo₁ fuel (le_trans (le_max_left _ _) hf), hgo' fuel (le_trans (le_max_right _ _) hf)]

/-- What `find_preds` returns and records. -/
structure Found (h : Heap) (key n : ℕ) (lo hi : List ℕ) (f : Find) : Prop where
  result : f.result = hi.head?.filter fun b => keyDiff (h.node b).key key = 0
  preds : ∀ l, l < n → l < h.highWater → f.preds l = (h.shape.above l lo).getLastD 0
  succs : ∀ l, l < n → l < h.highWater → f.succs l = (h.shape.above l hi).head?

/-- **`find_preds`** between the nodes of smaller keys and the others. -/
theorem findPreds_found (n : ℕ) (ht : h.Towers rank (lo ++ hi))
    (hlo : ∀ a ∈ lo, keyDiff (h.node a).key key < 0)
    (hhi : ∀ b ∈ hi, 0 ≤ keyDiff (h.node b).key key) :
    ∃ f need, Found h key n lo hi f ∧ ∀ fuel ≥ need,
      findPreds fuel h key n false = some (h, f) := by
  have hheights : ∀ a ∈ lo ++ hi, h.shape.height a ≤ h.highWater :=
    fun a ha => (ht.shape.heights a ha).2
  have hs : Searched h key n lo hi h.highWater ⟨0, none, 0, fun _ => 0, fun _ => none⟩ := by
    refine ⟨?_, ?_, by simp, ?_, ?_⟩
    · rw [above_eq_nil fun a ha => hheights a (List.mem_append_left hi ha)]
      rfl
    · rw [above_eq_nil fun a ha => hheights a (List.mem_append_right lo ha)]
      rfl
    · intro l hl _ hlw
      omega
    · intro l hl _ hlw
      omega
  obtain ⟨f, need, hf, hgo⟩ := searchLevels_all ht hlo hhi hs
  refine ⟨f, need, ⟨?_, fun l => hf.preds l (Nat.zero_le l), fun l => hf.succs l (Nat.zero_le l)⟩,
    hgo⟩
  have hitem : f.item = hi.head? := by
    rw [hf.item, above_zero fun a ha => (ht.shape.heights a (List.mem_append_right lo ha)).1]
  rw [Find.result, ← hitem]
  cases hb : f.item with
  | none => simp
  | some b => simp [Option.filter, hf.diff b hb]

end Search

/-! ## The search that unlinks -/

section Unlink

variable {rank : ℕ ↪ ℤ} {h g : Heap} {key x : ℕ} {lo hi : List ℕ}

/-- Node `x` is unlinked from its levels from `i` on. -/
abbrev Unlinked (h g : Heap) (lo hi : List ℕ) (x i : ℕ) : Prop :=
  Stored h g (fun m => (h.shape.above m lo).getLastD 0) (fun m => (h.shape.above m hi).head?) i
    (h.node x).numLevels

/-- Above the node there is nothing to unlink. -/
theorem Unlinked.lower {i : ℕ} (hu : Unlinked h g lo hi x (i + 1))
    (hle : (h.node x).numLevels ≤ i) : Unlinked h g lo hi x i := by
  refine ⟨hu.brk, hu.water, hu.key, hu.val, hu.levels, fun a m => ?_⟩
  rw [hu.next, if_neg (by omega), if_neg (by omega)]

/-- One level of the search that unlinks. -/
theorem searchLevels_unlink_step (ht : h.Towers rank (lo ++ x :: hi))
    (hlo : ∀ a ∈ lo, keyDiff (h.node a).key key < 0) (hx : (h.node x).key = key)
    (hhi : ∀ b ∈ hi, 0 < keyDiff (h.node b).key key) {level : ℕ} {f : Find}
    (hu : Unlinked h g lo hi x (level + 1))
    (hpred : f.pred = (h.shape.above (level + 1) lo).getLastD 0) :
    ∃ g' f' need, Unlinked h g' lo hi x level ∧ f'.pred = (h.shape.above level lo).getLastD 0
      ∧ ∀ fuel ≥ need, searchLevels key 0 true fuel (level + 1) g f
        = searchLevels key 0 true fuel level g' f' := by
  obtain ⟨back, hrest, hback, hlast⟩ := ht.shape.rest level
  rw [← hpred] at hrest hlast
  -- this level is as it was
  have hsame : ∀ a, g.next a level = h.next a level := by
    intro a
    rw [hu.next, if_neg (by omega)]
  have hrest' : Links (g.shape.succ level) f.pred (back ++ h.shape.above level (x :: hi)) :=
    hrest.congr fun a _ => hsame a
  have hnext : g.next f.pred level = (back ++ h.shape.above level (x :: hi)).head? :=
    hrest'.next_eq
  by_cases hskip : (back ++ h.shape.above level (x :: hi)).head? = none
  · obtain ⟨hback0, hhi0⟩ := List.append_eq_nil_iff.mp (List.head?_eq_none_iff.mp hskip)
    have hle : (h.node x).numLevels ≤ level := by
      by_contra hlt
      rw [above_cons_of_lt hi (not_le.mp hlt)] at hhi0
      cases hhi0
    refine ⟨g, f, 0, hu.lower hle, ?_, fun fuel _ => ?_⟩
    · rw [hlast, hback0]
      rfl
    · simp only [searchLevels]
      rw [hnext, if_pos ⟨hskip, Nat.zero_le level⟩]
  · have hlevels : ∀ fuel g' f',
        searchLevel key true level fuel g { f with item := g.next f.pred level } = some (g', f') →
        searchLevels key 0 true fuel (level + 1) g f = searchLevels key 0 true fuel level g' f' := by
      intro fuel g' f' hgo
      have hcond : ¬ (g.next f.pred level = none ∧ 0 ≤ level) := by
        rw [hnext]
        exact fun hc => hskip hc.1
      conv_lhs => rw [searchLevels]
      simp only [if_neg hcond, hgo]
      rfl
    obtain ⟨d₁, hpass⟩ := searchLevel_pass (f := f) key true hrest'
      fun a ha => by rw [hu.key]; exact hlo a (hback a ha)
    rw [← hlast, ← hnext] at hpass
    by_cases hlevel : level < (h.node x).numLevels
    · rw [above_cons_of_lt hi hlevel] at hpass
      have hlinks := ht.shape.links level
      rw [above_append, above_cons_of_lt hi hlevel] at hlinks
      have hxnext : g.next x level = (h.shape.above level hi).head? := by
        rw [hsame]
        exact hlinks.suffix.2.next_eq
      refine ⟨g.setNext ((h.shape.above level lo).getLastD 0) level (g.next x level),
        { f with
          pred := (h.shape.above level lo).getLastD 0
          item := g.next x level
          d := keyDiff (g.node x).key key }, back.length + 1, ?_, rfl, fun fuel hf => ?_⟩
      · rw [hxnext]
        exact hu.store fun m => by omega
      · obtain ⟨rest, rfl⟩ : ∃ r, fuel = r + 1 + back.length := ⟨fuel - 1 - back.length, by omega⟩
        refine hlevels _ _ _ ((hpass (rest + 1)).trans ?_)
        have hd : keyDiff (g.node x).key key = 0 := by
          rw [hu.key, hx]
          exact keyDiff_self key
        simp only [searchLevel, List.head?_cons, hd, le_refl, if_true, and_self]
    · have hle := not_lt.mp hlevel
      rw [above_cons_of_le hi hle] at hpass
      obtain ⟨d, -, hstop⟩ := searchLevel_stop (h := g) key true level
        { f with
          pred := (h.shape.above level lo).getLastD 0
          item := (h.shape.above level hi).head?
          d := d₁ } (by
        intro b hb
        rw [hu.key]
        exact Or.inl (hhi b (mem_above.mp (List.mem_of_mem_head? hb)).1))
      refine ⟨g, { f with
          pred := (h.shape.above level lo).getLastD 0
          item := (h.shape.above level hi).head?
          d := d }, back.length + 1, hu.lower hle, rfl, fun fuel hf => ?_⟩
      obtain ⟨rest, rfl⟩ : ∃ r, fuel = r + 1 + back.length := ⟨fuel - 1 - back.length, by omega⟩
      exact hlevels _ _ _ ((hpass (rest + 1)).trans (hstop rest))

/-- **The search that unlinks** takes the node out of every level. -/
theorem findPreds_unlink (ht : h.Towers rank (lo ++ x :: hi))
    (hlo : ∀ a ∈ lo, keyDiff (h.node a).key key < 0) (hx : (h.node x).key = key)
    (hhi : ∀ b ∈ hi, 0 < keyDiff (h.node b).key key) :
    ∃ g f need, Unlinked h g lo hi x 0 ∧ ∀ fuel ≥ need,
      findPreds fuel h key 0 true = some (g, f) := by
  have hloop : ∀ level g f, Unlinked h g lo hi x level →
      f.pred = (h.shape.above level lo).getLastD 0 → ∃ g' f' need, Unlinked h g' lo hi x 0
        ∧ ∀ fuel ≥ need, searchLevels key 0 true fuel level g f = some (g', f') := by
    intro level
    induction level with
    | zero => exact fun g f hu _ => ⟨g, f, 0, hu, fun _ _ => rfl⟩
    | succ level ih =>
      intro g f hu hf
      obtain ⟨g₁, f₁, need₁, hu₁, hf₁, hgo₁⟩ := searchLevels_unlink_step ht hlo hx hhi hu hf
      obtain ⟨g', f', need', hu', hgo'⟩ := ih g₁ f₁ hu₁ hf₁
      refine ⟨g', f', max need₁ need', hu', fun fuel hf => ?_⟩
      rw [hgo₁ fuel (le_trans (le_max_left _ _) hf), hgo' fuel (le_trans (le_max_right _ _) hf)]
  apply hloop h.highWater h
  · exact Stored.nothing (ht.shape.heights x (by simp)).2
  · have hheights : ∀ a ∈ lo, h.shape.height a ≤ h.highWater :=
      fun a ha => (ht.shape.heights a (List.mem_append_left _ ha)).2
    rw [above_eq_nil hheights]
    rfl

end Unlink

/-! ## The calls -/

section Calls

variable {rank : ℕ ↪ ℤ} {h : Heap} {m : List (ℕ × ℕ)} {lo hi : List ℕ} {k x z : ℕ}

theorem Heap.Towers.place {xs : List ℕ} (ht : h.Towers rank xs)
    (hord : ∀ p ∈ h.shape.entries xs, Agrees rank p.1 k) :
    ∃ lo hi, Place rank (fun a => (h.node a).key) k lo hi
      ∧ (xs = lo ++ hi ∨ ∃ x, (h.node x).key = k ∧ xs = lo ++ x :: hi) :=
  exists_place (fun a => (h.node a).key) ht.shape.sorted fun a ha =>
    hord ((h.node a).key, (h.node a).val) (List.mem_map_of_mem ha)

/-- The search for a key that is not there. -/
theorem findPreds_absent (n : ℕ) (ht : h.Towers rank (lo ++ hi))
    (hp : Place rank (fun a => (h.node a).key) k lo hi) :
    ∃ f need, Found h k n lo hi f ∧ f.result = none ∧ ∀ fuel ≥ need,
      findPreds fuel h k n false = some (h, f) := by
  obtain ⟨f, need, hf, hgo⟩ := findPreds_found n ht hp.below_diff fun b hb => (hp.above_diff b hb).le
  refine ⟨f, need, hf, ?_, hgo⟩
  rw [hf.result]
  cases hi with
  | nil => rfl
  | cons b hi =>
    have hd := (hp.above_diff b List.mem_cons_self).ne'
    simp [Option.filter, hd]

/-- The search for a key that is there. -/
theorem findPreds_present (n : ℕ) (ht : h.Towers rank (lo ++ x :: hi)) (hx : (h.node x).key = k)
    (hp : Place rank (fun a => (h.node a).key) k lo hi) :
    ∃ f need, f.result = some x ∧ ∀ fuel ≥ need, findPreds fuel h k n false = some (h, f) := by
  have hd : keyDiff (h.node x).key k = 0 := hx ▸ keyDiff_self k
  obtain ⟨f, need, hf, hgo⟩ := findPreds_found n ht hp.below_diff (by
    intro b hb
    rcases List.mem_cons.mp hb with rfl | hb
    · exact hd.ge
    · exact (hp.above_diff b hb).le)
  refine ⟨f, need, ?_, hgo⟩
  rw [hf.result]
  simp [Option.filter, hd]

/-- `random_levels`: the height is at least one and at most `high_water`. -/
theorem randomLevels_spec {xs : List ℕ} (hz : z < 32) (ht : h.Towers rank xs) :
    ∃ h₁ n, h₁.Towers rank xs ∧ h₁.shape.entries xs = h.shape.entries xs ∧ 0 < n
      ∧ n ≤ h₁.highWater ∧ randomLevels h z = some (h₁, n) := by
  have hwater := ht.water
  simp only [maxLevels] at hwater
  by_cases h0 : 2 * z / 3 = 0
  · refine ⟨h, 1, ht, rfl, Nat.one_pos, hwater.1, ?_⟩
    simp only [randomLevels, if_pos hz, if_pos h0]
  · by_cases hraise : h.highWater < 2 * z / 3
    · have hlt : h.highWater + 1 ≤ maxLevels := by
        simp only [maxLevels]
        omega
      refine ⟨{ h with highWater := h.highWater + 1 }, min (h.highWater + 1) maxLevels,
        ⟨ht.shape.raise, Nat.succ_pos _, hlt⟩, rfl, ?_, min_le_left _ _, ?_⟩
      · simp only [maxLevels]
        omega
      · simp only [randomLevels, if_pos hz, if_neg h0, if_pos hraise]
    · refine ⟨h, min (2 * z / 3) maxLevels, ht, rfl, ?_, ?_, ?_⟩
      · simp only [maxLevels]
        omega
      · exact (min_le_left _ _).trans (not_lt.mp hraise)
      · simp only [randomLevels, if_pos hz, if_neg h0, if_neg hraise]

/-- The loop that links the new node. -/
theorem link_stored (newItem : ℕ) (preds : ℕ → ℕ) (n : ℕ) (h : Heap) :
    Stored h (link newItem preds n h) preds (fun _ => some newItem) 0 n := by
  induction n with
  | zero => exact Stored.nothing le_rfl
  | succ n ih => exact ih.store fun m => by omega

/-- The insertion of a key that is not there. -/
theorem insert_towers {v n : ℕ} {f : Find} (ht : h.Towers rank (lo ++ hi))
    (hp : Place rank (fun a => (h.node a).key) k lo hi) (hv : v ≠ doesNotExist)
    (hn : 0 < n) (hnw : n ≤ h.highWater) (hf : Found h k n lo hi f) :
    (link h.brk f.preds n (h.alloc k v n f.succs)).Towers rank (lo ++ h.brk :: hi)
      ∧ (link h.brk f.preds n (h.alloc k v n f.succs)).shape.entries (lo ++ h.brk :: hi)
        = h.shape.entries lo ++ (k, v) :: h.shape.entries hi := by
  set g := h.alloc k v n f.succs
  set h' := link h.brk f.preds n g
  have hs : Stored g h' f.preds (fun _ => some h.brk) 0 n := link_stored h.brk f.preds n g
  have hpreds : ∀ l, l < n → f.preds l = (h.shape.above l lo).getLastD 0 :=
    fun l hl => hf.preds l hl (lt_of_lt_of_le hl hnw)
  have hsuccs : ∀ l, l < n → f.succs l = (h.shape.above l hi).head? :=
    fun l hl => hf.succs l hl (lt_of_lt_of_le hl hnw)
  have hnew : g.node h.brk = ⟨k, v, n, fun l => if l < n then f.succs l else none⟩ :=
    Function.update_self ..
  have hold : ∀ a, a ≠ h.brk → g.node a = h.node a := fun a ha => Function.update_of_ne ha ..
  obtain ⟨hshape, hentries⟩ := ht.shape.insert hp.below hp.above h'.shape hv hn hnw hs.brk hs.water
    ((hs.key h.brk).trans (congrArg Node.key hnew)) ((hs.val h.brk).trans (congrArg Node.val hnew))
    ((hs.levels h.brk).trans (congrArg Node.numLevels hnew)) (by
      intro l
      show h'.next h.brk l = _
      have hcond : ¬ (0 ≤ l ∧ l < n ∧ h.brk = f.preds l) := fun hc =>
        (ht.shape.pred l).1.ne' (hc.2.2.trans (hpreds l hc.2.1))
      rw [hs.next, if_neg hcond, Heap.next, hnew]
      by_cases hl : l < n
      · simp only [if_pos hl, hsuccs l hl]
      · simp only [if_neg hl])
    (by
      intro a ha
      have hnode := hold a ha
      exact ⟨(hs.key a).trans (congrArg Node.key hnode), (hs.val a).trans (congrArg Node.val hnode),
        (hs.levels a).trans (congrArg Node.numLevels hnode)⟩)
    (by
      intro a l ha
      show h'.next a l = _
      rw [hs.next, Heap.next, hold a ha]
      by_cases hl : l < n
      · simp only [Nat.zero_le, hl, true_and, hpreds l hl]
        rfl
      · simp only [hl, false_and, and_false, if_false]
        rfl)
  exact ⟨⟨hshape, hs.water ▸ ht.water⟩, hentries⟩

/-- A call refines the call of the map. -/
def CallRefines (rank : ℕ ↪ ℤ) (m : List (ℕ × ℕ)) (run : ℕ → Option (ℕ × Heap)) (c : Map.Call) :
    Prop :=
  ∃ fuel h', (∀ fuel' ≥ fuel, run fuel' = some ((call rank m c).1, h'))
    ∧ h'.Refines rank (call rank m c).2

theorem slLookup_refines (hR : h.Refines rank m) (hord : (Map.Call.get k).Ordered rank m) :
    CallRefines rank m (fun fuel => slLookup fuel h k) (.get k) := by
  obtain ⟨xs, ht, rfl⟩ := hR
  obtain ⟨lo, hi, hp, rfl | ⟨x, hx, rfl⟩⟩ := ht.place (hord k rfl)
  · have hget : get (h.shape.entries (lo ++ hi)) k = none := by
      rw [entries_append]
      exact get_absent hp.map_below hp.map_above
    obtain ⟨f, need, -, hres, hgo⟩ := findPreds_absent 0 ht hp
    refine ⟨need, h, fun fuel hf => ?_, ⟨_, ht, rfl⟩⟩
    simp only [slLookup, hgo fuel hf, hres, callBy, hget]
    rfl
  · have hget : get (h.shape.entries (lo ++ x :: hi)) k = some (h.node x).val := by
      rw [entries_present hx]
      exact get_present hp.map_below _
    obtain ⟨f, need, hres, hgo⟩ := findPreds_present 0 ht hx hp
    refine ⟨need, h, fun fuel hf => ?_, ⟨_, ht, rfl⟩⟩
    simp only [slLookup, hgo fuel hf, hres, callBy, hget]
    rfl

theorem slCas_refines {e v : ℕ} (hz : z < 32) (hR : h.Refines rank m) (hv : 0 < v)
    (hord : (Map.Call.cas k e v).Ordered rank m) :
    CallRefines rank m (fun fuel => slCas fuel h k e v z) (.cas k e v) := by
  obtain ⟨xs, ht₀, rfl⟩ := hR
  obtain ⟨h₁, n, ht, hentries, hn, hnw, hrandom⟩ := randomLevels_spec hz ht₀
  rw [← hentries] at hord ⊢
  obtain ⟨lo, hi, hp, rfl | ⟨x, hx, rfl⟩⟩ := ht.place (hord k rfl)
  · have hget : get (h₁.shape.entries (lo ++ hi)) k = none := by
      rw [entries_append]
      exact get_absent hp.map_below hp.map_above
    obtain ⟨f, need, hf, hres, hgo⟩ := findPreds_absent n ht hp
    by_cases hmet : Met e none
    · have hins : ¬ (e ≠ expectDoesNotExist ∧ e ≠ expectWhatever) := by
        rw [met_none] at hmet
        tauto
      obtain ⟨ht', hentries'⟩ := insert_towers ht hp hv.ne' hn hnw hf
      refine ⟨need, _, fun fuel hfuel => ?_, ⟨_, ht', ?_⟩⟩
      · simp only [slCas, hrandom, hgo fuel hfuel, hres, if_neg hins, callBy, hget]
        rfl
      · simp only [callBy, hget, if_pos hmet]
        rw [hentries', entries_append]
        exact put_absent hp.map_below hp.map_above v
    · have hstop : e ≠ expectDoesNotExist ∧ e ≠ expectWhatever := by
        rw [met_none] at hmet
        tauto
      refine ⟨need, h₁, fun fuel hfuel => ?_, ⟨_, ht, ?_⟩⟩
      · simp only [slCas, hrandom, hgo fuel hfuel, hres, if_pos hstop, callBy, hget]
        rfl
      · simp only [callBy, hget, if_neg hmet]
  · have hget : get (h₁.shape.entries (lo ++ x :: hi)) k = some (h₁.node x).val := by
      rw [entries_present hx]
      exact get_present hp.map_below _
    have hval : (h₁.node x).val ≠ doesNotExist := ht.shape.vals x (by simp)
    obtain ⟨f, need, hres, hgo⟩ := findPreds_present n ht hx hp
    -- the code's test of the expectation
    have hmet : ¬ Met e (some (h₁.node x).val) ↔ e = expectDoesNotExist
        ∨ (e ≠ expectWhatever ∧ e ≠ expectExists ∧ e ≠ (h₁.node x).val) := by
      unfold Met
      have hdne : e = expectDoesNotExist → e ≠ expectWhatever ∧ e ≠ expectExists
          ∧ (h₁.node x).val ≠ e := by
        rintro rfl
        exact ⟨by decide, by decide, hval⟩
      simp only [Option.some.injEq, reduceCtorEq, and_false, false_or, ne_eq, not_false_eq_true,
        and_true, eq_comm (a := (h₁.node x).val)] at hdne ⊢
      tauto
    by_cases he : Met e (some (h₁.node x).val)
    · have hnode := fun a => Heap.node_setVal (h := h₁) x v a
      obtain ⟨hshape, hentries'⟩ := ht.shape.update (h₁.setVal x v).shape (v := v) hv.ne' rfl rfl
        (fun a => (hnode a).1) (fun a => (hnode a).2.1)
        (fun l a => congrFun (hnode a).2.2.1 l) fun a => (hnode a).2.2.2
      refine ⟨need, h₁.setVal x v, fun fuel hfuel => ?_, ⟨_, ⟨hshape, ht.water⟩, ?_⟩⟩
      · simp only [slCas, hrandom, hgo fuel hfuel, hres, if_neg fun hc => hmet.mpr hc he, callBy, hget]
        rfl
      · simp only [callBy, hget, if_pos he]
        rw [hentries', entries_present hx, show h₁.shape.key x = k from hx]
        exact put_present hp.map_below hp.map_above _ v
    · refine ⟨need, h₁, fun fuel hfuel => ?_, ⟨_, ht, ?_⟩⟩
      · simp only [slCas, hrandom, hgo fuel hfuel, hres, if_pos (hmet.mp he), callBy, hget]
        rfl
      · simp only [callBy, hget, if_neg he]

theorem slRemove_refines (hR : h.Refines rank m) (hord : (Map.Call.remove k).Ordered rank m) :
    CallRefines rank m (fun fuel => slRemove fuel h k) (.remove k) := by
  obtain ⟨xs, ht, rfl⟩ := hR
  obtain ⟨lo, hi, hp, rfl | ⟨x, hx, rfl⟩⟩ := ht.place (hord k rfl)
  · have hget : get (h.shape.entries (lo ++ hi)) k = none := by
      rw [entries_append]
      exact get_absent hp.map_below hp.map_above
    obtain ⟨f, need, -, hres, hgo⟩ := findPreds_absent h.highWater ht hp
    refine ⟨need, h, fun fuel hf => ?_, ⟨_, ht, ?_⟩⟩
    · simp only [slRemove, hgo fuel hf, hres, callBy, hget]
      rfl
    · simp only [callBy, entries_append]
      exact erase_absent hp.map_below hp.map_above
  · have hget : get (h.shape.entries (lo ++ x :: hi)) k = some (h.node x).val := by
      rw [entries_present hx]
      exact get_present hp.map_below _
    obtain ⟨f, need, hres, hgo⟩ := findPreds_present h.highWater ht hx hp
    obtain ⟨g, f', need', hu, hgo'⟩ := findPreds_unlink ht hp.below_diff hx hp.above_diff
    obtain ⟨hshape, hentries⟩ := ht.shape.remove g.shape hu.brk hu.water
      (fun a _ => ⟨hu.key a, hu.val a, hu.levels a⟩) (fun a l _ => by
        show g.next a l = _
        rw [hu.next]
        simp only [Nat.zero_le, true_and]
        rfl)
    refine ⟨max need need', g, fun fuel hf => ?_, ⟨_, ⟨hshape, hu.water ▸ ht.water⟩, ?_⟩⟩
    · simp only [slRemove, hgo fuel (le_trans (le_max_left _ _) hf),
        hgo' fuel (le_trans (le_max_right _ _) hf), hres, callBy, hget]
      rfl
    · simp only [callBy]
      rw [hentries, entries_present hx]
      exact erase_present hp.map_below hp.map_above _

/-- The loop of `sl_count` over the nodes `xs`. -/
theorem slCount_eq {xs : List ℕ} {p n : ℕ} (hl : Links (h.shape.succ 0) p xs) :
    ∀ fuel > xs.length, slCount h fuel (h.next p 0) n = some (n + xs.length) := by
  induction xs generalizing p n with
  | nil =>
    intro fuel hf
    obtain ⟨fuel, rfl⟩ : ∃ f, fuel = f + 1 := ⟨fuel - 1, by omega⟩
    rw [show h.next p 0 = none from hl]
    rfl
  | cons a xs ih =>
    intro fuel hf
    obtain ⟨fuel, rfl⟩ : ∃ f, fuel = f + 1 := ⟨fuel - 1, by omega⟩
    rw [show h.next p 0 = some a from hl.1, slCount, ih hl.2 fuel (by simpa using hf),
      List.length_cons]
    congr 1
    omega

/-- The calls with a draw of `nbd_rand` and with the keys compared as the order says. -/
def Ok (rank : ℕ ↪ ℤ) (m : List (ℕ × ℕ)) (c : Map.Call × ℕ) : Prop :=
  c.2 < 32 ∧ c.1.Asserted ∧ c.1.Ordered rank m

/-- **Every call of the skiplist is a call of the sorted map.** -/
theorem exec_refines {c : Map.Call × ℕ} (hR : h.Refines rank m) (hok : Ok rank m c) :
    ∃ fuel h', (∀ fuel' ≥ fuel, exec fuel' h c = some ((call rank m c.1).1, h'))
      ∧ h'.Refines rank (call rank m c.1).2 := by
  obtain ⟨c, z⟩ := c
  obtain ⟨hz, hassert, hord⟩ := hok
  cases c with
  | get key => exact slLookup_refines hR hord
  | cas key expectation new => exact slCas_refines hz hR hassert.1 hord
  | remove key => exact slRemove_refines hR hord
  | count =>
    obtain ⟨xs, ht, rfl⟩ := hR
    refine ⟨xs.length + 1, h, fun fuel' hf => ?_, ⟨xs, ht, rfl⟩⟩
    have hcount := slCount_eq (n := 0) ht.shape.bottom fuel' (by omega)
    simp [exec, hcount, callBy, Shape.entries]
  | minKey =>
    obtain ⟨xs, ht, rfl⟩ := hR
    refine ⟨0, h, fun fuel' _ => ?_, ⟨xs, ht, rfl⟩⟩
    have hhead : h.next 0 0 = xs.head? := ht.shape.bottom.next_eq
    cases xs with
    | nil => simp [exec, hhead, slMinKey, callBy, Shape.entries]
    | cons a xs => simp [exec, hhead, slMinKey, callBy, Shape.entries, Heap.shape]

/-- The empty skiplist. -/
theorem init_refines (rank : ℕ ↪ ℤ) : init.Refines rank [] := by
  refine ⟨[], ⟨⟨fun _ => rfl, by simp, ?_, List.Pairwise.nil, by simp, by simp⟩, by decide⟩, rfl⟩
  intro a ha
  obtain rfl : a = 0 := by simpa using ha
  decide

/-- **The skiplist under a sequence of calls** `f c`. -/
theorem calls_refines {ι : Type*} (f : ι → Map.Call × ℕ) {cs : List ι}
    (hok : Meets (fun m c => call rank m (f c).1) (fun m c => Ok rank m (f c)) [] cs) :
    ∃ fuel h, (∀ fuel' ≥ fuel, calls (fun fuel h c => exec fuel h (f c)) fuel' init cs
        = some ((specCalls (fun m c => call rank m (f c).1) [] cs).1, h))
      ∧ h.Refines rank (specCalls (fun m c => call rank m (f c).1) [] cs).2 :=
  calls_refine (fun _ _ c hR hc => exec_refines (c := f c) hR hc) (init_refines rank) hok

end Calls

end UnsafeSkipList
