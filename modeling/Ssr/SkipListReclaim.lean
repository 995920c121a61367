/-
# Reclamation of skiplist nodes

When `sl_remove` hands a node to `rcu_defer_free`, its last search has gone through every
level and unlinked the node there.  What that search has passed stays passed, unless the
inserter of the node links it once more: `sl_cas` does so at the upper levels without a look
at the mark.  `Timely` excludes this, and the comparisons in which the truncated difference
of the keys has the wrong sign; in a run that is timely a node is on no level from its
hand-over on.

The argument is about one level at a time.  The search stands on a node that is not marked
when its link is read, and the node that was removed lies behind every such node with a
smaller key, and behind every such node with the same key (`Inv.ahead`).
-/
import Ssr.SkipListChains
import Ssr.SkipListLevels

open Interleaving Map LinkedChain
open LinkedList (Link)

namespace SkipList

/-! ## The condition -/

/-- The truncated difference orders two keys as they are. -/
def Exact (a b : ℕ) : Prop := (0 < keyDiff a b ↔ b < a) ∧ (keyDiff a b = 0 ↔ a = b)

instance (a b : ℕ) : Decidable (Exact a b) := inferInstanceAs (Decidable (_ ∧ _))

/-- The condition on one step: a comparison of a search that unlinks is exact, and `sl_cas`
does not link its node at an upper level after `sl_remove` has swapped out the value. -/
def Timely (_t : ℕ) (h : Heap) (pc : Pc) (_ : Cmd) : Prop :=
  match pc with
  | .findKey c _ item _ => c.unlink ≠ .dont → Exact (h.node item).key c.key
  | .casLink _ ins level =>
    h.next (ins.path.preds level) level = ⟨ins.path.succs level, false⟩ →
      (h.node ins.newItem).val ≠ doesNotExist
  | _ => True

instance (t : ℕ) (h : Heap) (pc : Pc) (cmd : Cmd) : Decidable (Timely t h pc cmd) :=
  match pc with
  | .findKey c _ item _ =>
    inferInstanceAs (Decidable (c.unlink ≠ .dont → Exact (h.node item).key c.key))
  | .casLink _ ins level =>
    inferInstanceAs (Decidable (h.next (ins.path.preds level) level
      = ⟨ins.path.succs level, false⟩ → (h.node ins.newItem).val ≠ doesNotExist))
  | .returned _ | .findStart _ _ | .findPred _ _ | .findNext _ _ _ | .findUnlink _ _ _ _
  | .lookupVal _ | .casRandom _ | .casHighWater _ _ | .casRaise _ | .casVal _ _
  | .casUpdate _ _ _ | .casAlloc _ _ _ | .casBottom _ _ | .casReload _ _ _ _
  | .casStore _ _ _ _ _ | .casCheck _ _ | .removeHighWater _ | .removeLevels _ _
  | .removeNext _ _ _ | .removeMark _ _ _ _ | .removeSwap _ _ | .removeDefer _ _ =>
    inferInstanceAs (Decidable True)

/-- Keys that lie less than `2 ^ 31` apart are compared exactly. -/
theorem exact_of_near {a b : ℕ} (hab : a < b + 2 ^ 31) (hba : b < a + 2 ^ 31) : Exact a b := by
  rw [Exact, keyDiff_of_near hab hba]
  omega

/-! ## What a thread knows -/

/-- Thread `t` builds up the node `n` with `m` levels, and has linked it below `level`. -/
structure Building (t : ℕ) (h : Heap) (g : Story) (key n m level : ℕ) : Prop where
  ne_zero : n ≠ 0
  lt_brk : n < h.brk
  owner : g.owner n = t
  key_eq : (h.node n).key = key
  levels : (h.node n).numLevels = m
  kept : ¬ g.given n
  linked : ∀ l, g.linked n l ↔ l < level

/-- `sl_remove` found `item`. -/
structure Target (h : Heap) (g : Story) (key item : ℕ) : Prop where
  ne_zero : item ≠ 0
  linked : g.linked item 0
  key_eq : (h.node item).key = key

namespace Caller

/-- The node that the search is to take off the skiplist. -/
def target : Caller → Option ℕ
  | unlinkRemoved _ item _ => some item
  | _ => none

/-- What the caller knows during its search. -/
def Knows (t : ℕ) (h : Heap) (g : Story) : Caller → Prop
  | relink key n m level => Building t h g key n m level ∧ 0 < level
  | unlinkRemoved key item _ => Removed h g item ∧ (h.node item).key = key
  | _ => True

/-- What a live node with the key of the search means to the caller: the node that is
built up is marked at the next level. -/
def Tie (h : Heap) (level : ℕ) : Caller → Prop
  | relink _ n _ l => l ≤ level → h.marked l n = true
  | _ => True

end Caller

/-- The search for `key` ended between `pred` and `item` on `level`; `tie` holds of an item
with that very key. -/
structure Entry (h : Heap) (g : Story) (key level pred : ℕ) (item : Option ℕ) (tie : ℕ → Prop) :
    Prop where
  linked : g.linked pred level
  before : pred = 0 ∨ (h.node pred).key < key
  behind : ∀ s, item = some s → s ≠ 0 ∧ g.linked s level ∧ key ≤ (h.node s).key
    ∧ ((h.node s).key = key → tie s)

/-- The entries of the arrays from `level` on. -/
def Entries (h : Heap) (g : Story) (c : Caller) (path : Path) (level : ℕ) : Prop :=
  ∀ l, level ≤ l → l < c.n →
    Entry h g c.key l (path.preds l) (path.succs l) fun _ => c.Tie h l

/-- Where a search may stand. -/
structure Stands (h : Heap) (g : Story) (c : Caller) (pred level : ℕ) : Prop where
  linked : g.linked pred level
  before : c.unlink ≠ .dont → pred = 0 ∨ (h.node pred).key < c.key
    ∨ c.unlink = .force ∧ (h.node pred).key = c.key

/-- The target is on no level from `level` on. -/
def Swept (h : Heap) (c : Caller) (level : ℕ) : Prop :=
  ∀ x, c.target = some x → ∀ l, level ≤ l → ¬ h.Reaches l x

/-- Where the target is on the level, it lies behind `pred`, and `item` leads to it. -/
def Facing (h : Heap) (c : Caller) (level pred : ℕ) (item : Option ℕ) : Prop :=
  ∀ x, c.target = some x → h.Reaches level x →
    pred ≠ x ∧ Chain.Reach (h.succ level) pred x
      ∧ ∃ b, item = some b ∧ Chain.Reach (h.succ level) b x

/-- A search has come to the level of `f`. -/
structure Searching (t : ℕ) (h : Heap) (g : Story) (c : Caller) (f : Find) : Prop where
  knows : c.Knows t h g
  stands : Stands h g c f.pred f.level
  path : Entries h g c f.path (f.level + 1)
  swept : Swept h c (f.level + 1)

/-- A node that may be linked on a level. -/
def On (g : Story) (level : ℕ) (item : Option ℕ) : Prop :=
  ∀ b, item = some b → b ≠ 0 ∧ g.linked b level

/-- What the search has found so far. -/
def Found (h : Heap) (g : Story) (c : Caller) (f : Find) : Prop :=
  ∀ s, f.item = some s → s ≠ 0 ∧ g.linked s 0
    ∧ (f.d = 0 → c.unlink ≠ .dont → (h.node s).key = c.key)

/-- The links of the node are built up at `level`: those below `i` are corrected. -/
structure Relinking (t : ℕ) (h : Heap) (g : Story) (key : ℕ) (ins : Insert) (level i : ℕ) :
    Prop where
  building : Building t h g key ins.newItem ins.n level
  pos : 0 < level
  le : level ≤ i
  entry : ∀ l, level ≤ l → l < ins.n →
    Entry h g key l (ins.path.preds l) (ins.path.succs l) fun _ =>
      i = level ∧ h.marked level ins.newItem = true
  corrected : ∀ l, level ≤ l → l < i → l < ins.n → h.succ l ins.newItem = ins.path.succs l

/-- The local part of the invariant, by program counter. -/
def Pc.Safe (t : ℕ) (h : Heap) (g : Story) : Pc → Prop
  | .findStart c _ => c.Knows t h g
  | .findPred c f => Searching t h g c f ∧ Found h g c f
  | .findNext c f item =>
    Searching t h g c f ∧ On g f.level (some item) ∧ Facing h c f.level f.pred (some item)
  | .findUnlink c f item next =>
    Searching t h g c f ∧ On g f.level (some item) ∧ h.next item f.level = next
      ∧ next.mark = true
  | .findKey c f item next =>
    Searching t h g c f ∧ On g f.level (some item) ∧ On g f.level next.node
      ∧ Facing h c f.level item next.node ∧ ((h.node item).key = c.key → c.Tie h f.level)
  | .casUpdate _ _ old => old ≠ doesNotExist
  | .casAlloc args n path =>
    ∀ l, l < n → Entry h g args.key l (path.preds l) (path.succs l) fun _ => l ≠ 0
  | .casBottom args ins =>
    Building t h g args.key ins.newItem ins.n 0
      ∧ (∀ l, h.next ins.newItem l = ⟨if l < ins.n then ins.path.succs l else none, false⟩)
      ∧ ∀ l, l < ins.n → Entry h g args.key l (ins.path.preds l) (ins.path.succs l) fun s =>
        l ≠ 0 ∧ s < ins.newItem
  | .casLink key ins level =>
    Building t h g key ins.newItem ins.n level ∧ 0 < level
      ∧ ∀ l, level ≤ l → l < ins.n → h.succ l ins.newItem = ins.path.succs l
        ∧ Entry h g key l (ins.path.preds l) (ins.path.succs l) fun s =>
          s < ins.newItem ∧ h.marked 0 s = true
  | .casReload key ins level i => Relinking t h g key ins level i
  | .casStore key ins level i old => Relinking t h g key ins level i
      ∧ (h.next ins.newItem i = old ∨ h.next ins.newItem i = ⟨old.node, true⟩)
  | .removeLevels key item => Target h g key item
  | .removeNext key item level | .removeMark key item level _ =>
    Target h g key item ∧ ∀ l, level < l → Sealed h g item l
  | .removeSwap key item => Target h g key item ∧ h.marked 0 item = true
  | .removeDefer item _ => Removed h g item ∧ ∀ level, ¬ h.Reaches level item
  | _ => True

/-! ## What a thread knows is stable -/

section Stable

variable {t key level : ℕ} {h h' : Heap} {g g' : Story} {c : Caller}

/-- A node that thread `t` builds is left alone by the others. -/
theorem Building.stable {n m : ℕ} (hr : Rely t h g h' g') (hb : Building t h g key n m level) :
    Building t h' g' key n m level where
  ne_zero := hb.ne_zero
  lt_brk := hb.lt_brk.trans_le hr.grows.brk_le
  owner := hr.owner n hb.ne_zero hb.lt_brk hb.owner
  key_eq := (hr.grows.key_eq n hb.lt_brk).trans hb.key_eq
  levels := (hr.grows.levels_eq n hb.lt_brk).trans hb.levels
  kept := fun hg => hb.kept ((hr.given n hb.ne_zero hb.lt_brk hb.owner).mp hg)
  linked l := (hr.linked n l hb.ne_zero hb.lt_brk hb.owner).trans (hb.linked l)

/-- The links of a node that is built up are only marked by others. -/
theorem Building.next {n m l : ℕ} (hr : Rely t h g h' g') (hb : Building t h g key n m level)
    (hl : level ≤ l) :
    h'.next n l = h.next n l ∨ g.linked n 0 ∧ h'.next n l = ⟨(h.next n l).node, true⟩ :=
  hr.next n l hb.ne_zero hb.lt_brk hb.owner fun hn => absurd ((hb.linked l).mp hn) hl.not_gt

/-- So are its links above. -/
theorem Building.succ {n m l : ℕ} (hr : Rely t h g h' g') (hb : Building t h g key n m level)
    (hl : level ≤ l) : h'.succ l n = h.succ l n := by
  rcases hb.next hr hl with heq | ⟨-, heq⟩
  · exact congrArg Link.node heq
  · rw [Heap.succ, heq]
    rfl

/-- A mark on it stays. -/
theorem Building.marked {n m l : ℕ} (hr : Rely t h g h' g') (hb : Building t h g key n m level)
    (hl : level ≤ l) (hm : h.marked l n = true) : h'.marked l n = true := by
  rcases hb.next hr hl with heq | ⟨-, heq⟩
  · exact (congrArg Link.mark heq).trans hm
  · exact congrArg Link.mark heq

/-- A node that is to be removed stays what it is. -/
theorem Target.stable {item : ℕ} (hi : Inv h g) (hg : Grows h g h' g')
    (ht : Target h g key item) : Target h' g' key item where
  ne_zero := ht.ne_zero
  linked := hg.linked_sub item 0 ht.linked
  key_eq := (hg.key_eq item (hi.lt_brk ht.linked)).trans ht.key_eq

/-- What the caller knows stays. -/
theorem Caller.Knows.stable (hi : Inv h g) (hr : Rely t h g h' g') (hk : c.Knows t h g) :
    c.Knows t h' g' := by
  cases c with
  | lookup | cas | clean | remove => trivial
  | relink key n m level => exact ⟨hk.1.stable hr, hk.2⟩
  | unlinkRemoved key item val =>
    exact ⟨hk.1.grows hi hr.grows, (hr.grows.key_eq item (hi.lt_brk hk.1.linked)).trans hk.2⟩

/-- So does the tie to the node that it removes. -/
theorem Caller.Tie.stable (hr : Rely t h g h' g') (hk : c.Knows t h g) (htie : c.Tie h level) :
    c.Tie h' level := by
  cases c with
  | lookup | cas | clean | remove | unlinkRemoved => trivial
  | relink key n m l => exact fun hl => hk.1.marked hr le_rfl (htie hl)

/-- An entry of a path stays right. -/
theorem Entry.stable {pred : ℕ} {item : Option ℕ} {tie tie' : ℕ → Prop} (hi : Inv h g)
    (hg : Grows h g h' g') (htie : ∀ s, g.linked s level → tie s → tie' s)
    (he : Entry h g key level pred item tie) : Entry h' g' key level pred item tie' where
  linked := hg.linked_sub pred level he.linked
  before := by
    rw [hg.key_eq pred (hi.lt_brk he.linked)]
    exact he.before
  behind := by
    intro s hs
    obtain ⟨h0, hl, hle, hkey⟩ := he.behind s hs
    rw [hg.key_eq s (hi.lt_brk hl)]
    exact ⟨h0, hg.linked_sub s level hl, hle, fun heq => htie s hl (hkey heq)⟩

/-- So do all entries. -/
theorem Entries.stable {path : Path} (hi : Inv h g) (hr : Rely t h g h' g')
    (hk : c.Knows t h g) (hp : Entries h g c path level) : Entries h' g' c path level :=
  fun l hl hn => (hp l hl hn).stable hi hr.grows fun _ _ htie => htie.stable hr hk

/-- A search stays behind its key. -/
theorem Stands.stable {pred : ℕ} (hi : Inv h g) (hg : Grows h g h' g')
    (hs : Stands h g c pred level) : Stands h' g' c pred level where
  linked := hg.linked_sub pred level hs.linked
  before := by
    rw [hg.key_eq pred (hi.lt_brk hs.linked)]
    exact hs.before

/-- The target of a search has been removed. -/
theorem Caller.Knows.removed (hk : c.Knows t h g) {x : ℕ} (hx : c.target = some x) :
    Removed h g x ∧ (h.node x).key = c.key ∧ c.unlink = .force := by
  cases c with
  | lookup | cas | clean | remove | relink => cases hx
  | unlinkRemoved key item val =>
    cases hx
    exact ⟨hk.1, hk.2, rfl⟩

/-- A level that was swept stays so. -/
theorem Swept.stable (hi : Inv h g) (hg : Grows h g h' g') (hk : c.Knows t h g)
    (hs : Swept h c level) : Swept h' c level :=
  fun x hx l hl => hg.gone hi (hk.removed hx).1 (hs x hx l hl)

/-- What lies in front of the search stays. -/
theorem Facing.stable {pred : ℕ} {item : Option ℕ} (hi : Inv h g) (hg : Grows h g h' g')
    (hk : c.Knows t h g) (hp : g.linked pred level) (hit : On g level item)
    (ha : Facing h c level pred item) : Facing h' c level pred item := by
  intro x hx hre
  have hre' : h.Reaches level x := by
    by_contra hn
    exact hg.gone hi (hk.removed hx).1 hn hre
  obtain ⟨hne, hpx, b, hb, hbx⟩ := ha x hx hre'
  exact ⟨hne, hg.leads pred x level hp hre hpx, b, hb, hg.leads b x level (hit b hb).2 hre hbx⟩

/-- **A search** is stable. -/
theorem Searching.stable {f : Find} (hi : Inv h g) (hr : Rely t h g h' g')
    (hs : Searching t h g c f) : Searching t h' g' c f where
  knows := hs.knows.stable hi hr
  stands := hs.stands.stable hi hr.grows
  path := hs.path.stable hi hr hs.knows
  swept := hs.swept.stable hi hr.grows hs.knows

/-- A node stays on its level. -/
theorem On.stable {item : Option ℕ} (hg : Grows h g h' g') (ho : On g level item) :
    On g' level item :=
  fun b hb => ⟨(ho b hb).1, hg.linked_sub b level (ho b hb).2⟩

/-- What a search has found stays. -/
theorem Found.stable {f : Find} (hi : Inv h g) (hg : Grows h g h' g') (hf : Found h g c f) :
    Found h' g' c f := by
  intro s hs
  obtain ⟨h0, hl, hkey⟩ := hf s hs
  rw [hg.key_eq s (hi.lt_brk hl)]
  exact ⟨h0, hg.linked_sub s 0 hl, hkey⟩

/-- A node that is linked level by level stays so. -/
theorem Relinking.stable {ins : Insert} {i : ℕ} (hi : Inv h g) (hr : Rely t h g h' g')
    (hl : Relinking t h g key ins level i) : Relinking t h' g' key ins level i where
  building := hl.building.stable hr
  pos := hl.pos
  le := hl.le
  entry l hle hlt := (hl.entry l hle hlt).stable hi hr.grows fun _ _ htie =>
    ⟨htie.1, hl.building.marked hr le_rfl htie.2⟩
  corrected l hle hlt hn := (hl.building.succ hr hle).trans (hl.corrected l hle hlt hn)

/-- What a thread knows is stable under what it relies on. -/
theorem Pc.Safe.stable {pc : Pc} (hi : Inv h g) (hr : Rely t h g h' g') (hs : pc.Safe t h g) :
    pc.Safe t h' g' := by
  have hg := hr.grows
  cases pc with
  | returned | lookupVal | casRandom | casHighWater | casRaise | casVal | casCheck
  | removeHighWater => trivial
  | casUpdate args item old => exact hs
  | findStart c path => exact Caller.Knows.stable hi hr hs
  | findPred c f => exact ⟨hs.1.stable hi hr, hs.2.stable hi hg⟩
  | findNext c f item =>
    obtain ⟨hs, hit, ha⟩ := hs
    exact ⟨hs.stable hi hr, hit.stable hg, ha.stable hi hg hs.knows hs.stands.linked hit⟩
  | findUnlink c f item next =>
    obtain ⟨hs, hit, rfl, hm⟩ := hs
    refine ⟨hs.stable hi hr, hit.stable hg, ?_, hm⟩
    exact hg.frozen item f.level (hit item rfl).2 hm
  | findKey c f item next =>
    obtain ⟨hs, hit, hn, ha, htie⟩ := hs
    refine ⟨hs.stable hi hr, hit.stable hg, hn.stable hg,
      ha.stable hi hg hs.knows (hit item rfl).2 hn, fun heq => ?_⟩
    rw [hg.key_eq item (hi.lt_brk (hit item rfl).2)] at heq
    exact (htie heq).stable hr hs.knows
  | casAlloc args n path =>
    exact fun l hl => (hs l hl).stable hi hg fun _ _ htie => htie
  | casBottom args ins =>
    obtain ⟨hb, hn, hp⟩ := hs
    refine ⟨hb.stable hr, fun l => ?_, fun l hl => (hp l hl).stable hi hg fun _ _ htie => htie⟩
    rcases hb.next hr (Nat.zero_le l) with heq | ⟨hl, -⟩
    · rw [heq, hn]
    · exact absurd ((hb.linked 0).mp hl) (lt_irrefl 0)
  | casLink key ins level =>
    obtain ⟨hb, hpos, hp⟩ := hs
    refine ⟨hb.stable hr, hpos, fun l hl hlt => ?_⟩
    obtain ⟨hn, he⟩ := hp l hl hlt
    refine ⟨(hb.succ hr hl).trans hn, he.stable hi hg fun s hsl htie => ⟨htie.1, ?_⟩⟩
    exact hg.mark_sub s 0 (hi.linked_of_le (Nat.zero_le l) hsl) htie.2
  | casReload key ins level i => exact Relinking.stable hi hr hs
  | casStore key ins level i old =>
    obtain ⟨hl, hold⟩ := hs
    refine ⟨hl.stable hi hr, ?_⟩
    rcases hl.building.next hr hl.le with heq | ⟨-, heq⟩
    · rw [heq]
      exact hold
    · refine .inr ?_
      rcases hold with hold | hold <;> rw [heq, hold]
  | removeLevels key item => exact Target.stable hi hg hs
  | removeNext key item level | removeMark key item level next =>
    obtain ⟨ht, hm⟩ := hs
    exact ⟨ht.stable hi hg, fun l hl => hg.sealed_sub item l (hi.lt_brk ht.linked) (hm l hl)⟩
  | removeSwap key item =>
    obtain ⟨ht, hm⟩ := hs
    exact ⟨ht.stable hi hg, hg.mark_sub item 0 ht.linked hm⟩
  | removeDefer item val =>
    obtain ⟨hd, hgone⟩ := hs
    exact ⟨hd.grows hi hg, fun l => hg.gone hi hd (hgone l)⟩

end Stable

/-! ## The searches -/

/-- No caller records more levels than there are. -/
theorem Caller.n_le {water : ℕ} {c : Caller} (hc : c.Leveled water) : c.n ≤ water := by
  cases c with
  | lookup | clean | unlinkRemoved => exact Nat.zero_le water
  | cas args n => exact hc.2.1
  | relink key newItem n level => exact hc.1.2.1
  | remove key n => exact hc

section Search

variable {t key level : ℕ} {h : Heap} {g : Story} {c : Caller} {f : Find}

/-- A caller that passes arrays lets the search unlink, and stop at the key. -/
theorem Caller.unlink_of_n (hn : 0 < c.n) : c.unlink = .assist := by
  cases c with
  | lookup | clean | unlinkRemoved => exact absurd hn (lt_irrefl 0)
  | cas | relink | remove => rfl

/-- A weaker tie. -/
theorem Entry.imp {pred : ℕ} {item : Option ℕ} {tie tie' : ℕ → Prop} (htie : ∀ s, tie s → tie' s)
    (he : Entry h g key level pred item tie) : Entry h g key level pred item tie' :=
  ⟨he.linked, he.before, fun s hs => by
    obtain ⟨h0, hl, hle, hkey⟩ := he.behind s hs
    exact ⟨h0, hl, hle, fun heq => htie s (hkey heq)⟩⟩

/-- `find_preds` returned. -/
theorem safe_resume {path : Path} {item : Option ℕ} (hk : c.Knows t h g)
    (hp : Entries h g c path 0) (hs : Swept h c 0)
    (hit : ∀ s, item = some s → s ≠ 0 ∧ g.linked s 0 ∧ (c.unlink ≠ .dont → (h.node s).key = c.key))
    (hnone : item = none → 0 < c.n → ∀ s, path.succs 0 = some s → (h.node s).key ≠ c.key) :
    (resume c path item).Safe t h g := by
  cases c with
  | lookup key => cases item <;> trivial
  | clean key => trivial
  | cas args n =>
    cases item with
    | some i => trivial
    | none =>
      simp only [resume]
      split
      · trivial
      · intro l hl
        obtain ⟨hlink, hbefore, hbehind⟩ := hp l (Nat.zero_le l) hl
        refine ⟨hlink, hbefore, fun s hs => ?_⟩
        obtain ⟨h0, hsl, hle, -⟩ := hbehind s hs
        refine ⟨h0, hsl, hle, fun heq hl0 => ?_⟩
        rw [hl0] at hs
        exact hnone rfl (Nat.zero_lt_of_lt hl) s hs heq
  | relink key n m level =>
    simp only [resume, reloadLevel]
    split
    · refine ⟨hk.1, hk.2, le_rfl, fun l hl hlt => ?_, fun l hl hlt => absurd hlt hl.not_gt⟩
      exact (hp l (Nat.zero_le l) hlt).imp fun _ htie => ⟨rfl, htie hl⟩
    · rename_i hlt
      exact ⟨hk.1, hk.2, fun l hl hl' => absurd (hl.trans_lt hl') hlt⟩
  | remove key n =>
    cases item with
    | some i =>
      obtain ⟨h0, hl, hkey⟩ := hit i rfl
      exact ⟨h0, hl, hkey Unlink.noConfusion⟩
    | none => trivial
  | unlinkRemoved key item val => exact ⟨hk.1, fun l => hs item rfl l (Nat.zero_le l)⟩

/-- The search goes on below `level`. -/
theorem safe_descend (hk : c.Knows t h g) (hst : ∀ l, l < level → Stands h g c f.pred l)
    (hp : Entries h g c f.path level) (hs : Swept h c level) (hf : Found h g c f)
    (hnone : level = 0 → 0 < c.n → (f.d = 0 → f.item = none) →
      ∀ s, f.path.succs 0 = some s → (h.node s).key ≠ c.key) :
    (descend c f level).Safe t h g := by
  cases level with
  | succ level =>
    exact ⟨⟨hk, hst level (Nat.lt_succ_self level), hp, hs⟩, hf⟩
  | zero =>
    refine safe_resume hk hp hs (fun s hs => ?_) fun hno hn => hnone rfl hn fun hd => ?_
    · split at hs
      · rename_i hd
        obtain ⟨h0, hl, hkey⟩ := hf s hs
        exact ⟨h0, hl, hkey hd⟩
      · cases hs
    · rw [if_pos hd] at hno
      exact hno

/-- A node that was reached on a level stands on the lower ones. -/
theorem Stands.below {pred : ℕ} (hi : Inv h g) (hs : Stands h g c pred level) {l : ℕ}
    (hl : l ≤ level) : Stands h g c pred l :=
  ⟨hi.linked_of_le hl hs.linked, hs.before⟩

/-- The search of a level ended at `item`. -/
theorem safe_levelDone {item : Option ℕ} (hi : Inv h g) (hs : Searching t h g c f)
    (he : 0 < c.n → Entry h g c.key f.level f.pred item fun _ => c.Tie h f.level)
    (hgone : ∀ x, c.target = some x → ¬ h.Reaches f.level x)
    (hit : ∀ s, item = some s → s ≠ 0 ∧ g.linked s f.level
      ∧ (c.unlink ≠ .dont → (f.d = 0 ↔ (h.node s).key = c.key))) :
    (levelDone c f item).Safe t h g := by
  have hpath : Entries h g c
      (if f.level < c.n then f.path.record f.level f.pred item else f.path) f.level := by
    intro l hl hn
    rw [if_pos (hl.trans_lt hn)]
    by_cases heq : l = f.level
    · subst heq
      simp only [Path.record, Function.update_self]
      exact he (Nat.zero_lt_of_lt hn)
    · simp only [Path.record, Function.update_of_ne heq]
      exact hs.path l (lt_of_le_of_ne hl (Ne.symm heq)) hn
  have hswept : Swept h c f.level := by
    intro x hx l hl
    rcases hl.eq_or_lt with rfl | hlt
    · exact hgone x hx
    · exact hs.swept x hx l hlt
  refine safe_descend hs.knows (fun l hl => hs.stands.below hi hl.le) hpath hswept ?_ ?_
  · intro s hs
    obtain ⟨h0, hl, hkey⟩ := hit s hs
    exact ⟨h0, hi.linked_of_le (Nat.zero_le _) hl, fun hd hu => (hkey hu).mp hd⟩
  · intro hl hn hno s hsucc heq
    simp only [hl, hn, if_true, Path.record, Function.update_self] at hsucc
    have hu : c.unlink ≠ .dont := by
      rw [Caller.unlink_of_n hn]
      exact Unlink.noConfusion
    have hd : f.d = 0 := ((hit s hsucc).2.2 hu).mpr heq
    have hnone : item = none := hno hd
    rw [hnone] at hsucc
    cases hsucc

/-- The predecessor is the head or has a smaller key. -/
theorem Stands.entry_before {pred : ℕ} (hs : Stands h g c pred level) (hn : 0 < c.n) :
    pred = 0 ∨ (h.node pred).key < c.key := by
  have hu := Caller.unlink_of_n hn
  rcases hs.before (by rw [hu]; exact Unlink.noConfusion) with h0 | hlt | ⟨hf, -⟩
  · exact .inl h0
  · exact .inr hlt
  · rw [hu] at hf
    exact absurd hf Unlink.noConfusion

/-- A search comes to a node. -/
theorem safe_visit {item : Option ℕ} (hi : Inv h g) (hs : Searching t h g c f)
    (hit : On g f.level item) (ha : Facing h c f.level f.pred item) :
    (visit c f item).Safe t h g := by
  cases item with
  | some b => exact ⟨hs, hit, ha⟩
  | none =>
    refine safe_levelDone hi hs (fun hn => ⟨hs.stands.linked, hs.stands.entry_before hn, ?_⟩) ?_ ?_
    · intro s hs
      cases hs
    · intro x hx hre
      obtain ⟨-, -, b, hb, -⟩ := ha x hx hre
      cases hb
    · intro s hs
      cases hs

/-- A linked node leads to linked nodes. -/
theorem Inv.on_succ (hi : Inv h g) {a : ℕ} (ha : g.linked a level) :
    On g level (h.succ level a) := by
  intro b hb
  obtain ⟨hl, hlt⟩ := (hi.leads level).link a b ha hb
  exact ⟨hlt.1, hl⟩

/-- The target lies behind an unmarked node on which the search may stand. -/
theorem Inv.ahead (hi : Inv h g) {pred : ℕ} (hk : c.Knows t h g) (hs : Stands h g c pred level)
    (hm : h.marked level pred = false) : Facing h c level pred (h.succ level pred) := by
  intro x hx hre
  obtain ⟨hrem, hkey, hforce⟩ := hk.removed hx
  have hlinked : g.linked x level := (hi.leads level).linked_of_reach hre
  have hmx : h.marked level x = true := hi.marked_of_dead hrem.ne_zero hlinked hrem.dead
  have hne : pred ≠ x := by
    rintro rfl
    rw [hm] at hmx
    exact absurd hmx (by simp)
  have hlt : ¬ h.Below level x pred := by
    rintro ⟨h0, hlt⟩
    have hle : (h.node pred).key ≤ (h.node x).key := by
      rw [hkey]
      rcases hs.before (by rw [hforce]; exact Unlink.noConfusion) with h0' | hlt | ⟨-, heq⟩
      · exact absurd h0' h0
      · exact hlt.le
      · exact heq.le
    rcases hlt with hx0 | hlt | ⟨-, -, -, hdead⟩
    · exact hrem.ne_zero hx0
    · exact absurd hlt hle.not_gt
    · -- an older node with the same key has been removed, and is marked here
      rw [hi.marked_of_dead h0 hs.linked hdead] at hm
      exact absurd hm (by simp)
  obtain ⟨b, hb, hbx⟩ := (hi.leads level).reach_unmarked hs.linked hm hre hne hlt
  exact ⟨hne, .head hb hbx, b, hb, hbx⟩

/-- Behind the node that was examined. -/
theorem Facing.next {pred item : ℕ} (ha : Facing h c level pred (some item))
    (hne : ∀ x, c.target = some x → h.Reaches level x → item ≠ x) :
    Facing h c level item (h.succ level item) := by
  intro x hx hre
  obtain ⟨-, -, b, hb, hbx⟩ := ha x hx hre
  cases hb
  rcases hbx.cases_head with heq | hhead
  · exact absurd heq (hne x hx hre)
  · exact ⟨hne x hx hre, hbx, hhead⟩

end Search

/-! ## One step -/

/-- The step keeps the invariant, and the thread knows where it stands. -/
def Keeps (t : ℕ) (h : Heap) (g : Story) (h' : Heap) (g' : Story) (pc' : Pc) : Prop :=
  Does t h g h' g' ∧ pc'.Safe t h' g'

section Step

variable {t key level : ℕ} {h h' : Heap} {g : Story} {pc pc' : Pc} {cmd : Cmd} {c : Caller}
  {f : Find} {args : Cas} {ins : Insert}

/-- A step that stores nothing. -/
theorem Keeps.same (hi : Inv h g) (hs : pc'.Safe t h g) : Keeps t h g h g pc' :=
  ⟨.refl hi t, hs⟩

/-! ### `find_preds` -/

/-- A search loads the first link of a level. -/
theorem keeps_findPred (hi : Inv h g) (hs : (Pc.findPred c f).Safe t h g)
    (hstep : step h (.findPred c f) .resume = some (h', pc')) : Keeps t h g h' g pc' := by
  obtain ⟨hs, hf⟩ := hs
  simp only [step] at hstep
  split at hstep
  · rename_i hskip
    obtain ⟨hnext, hn⟩ := hskip
    cases hstep
    have hahead := hi.ahead hs.knows hs.stands (congrArg Link.mark hnext)
    refine .same hi (safe_descend hs.knows (fun l hl => hs.stands.below hi hl.le) ?_ ?_ hf ?_)
    · exact fun l hl hlt => absurd (hl.trans_lt hlt) hn.not_gt
    · intro x hx l hl
      rcases hl.eq_or_lt with rfl | hlt
      · intro hre
        obtain ⟨-, -, b, hb, -⟩ := hahead x hx hre
        rw [Heap.succ, hnext] at hb
        cases hb
      · exact hs.swept x hx l hlt
    · intro hl hn'
      exact absurd hn' (by omega)
  · split at hstep
    · cases hstep
      exact .same hi hs.knows
    · rename_i hm
      cases hstep
      have hm' : h.marked f.level f.pred = false := Bool.not_eq_true _ ▸ hm
      refine .same hi (safe_visit hi hs (hi.on_succ hs.stands.linked) ?_)
      exact hi.ahead hs.knows hs.stands hm'

/-- A search loads the link of a node. -/
theorem keeps_findNext {item : ℕ} (hi : Inv h g) (hlv : (Pc.findNext c f item).Leveled h.highWater)
    (hs : (Pc.findNext c f item).Safe t h g) :
    (examine c f item (h.next item f.level)).Safe t h g := by
  obtain ⟨hs, hit, ha⟩ := hs
  obtain ⟨hit0, hlink⟩ := hit item rfl
  unfold examine
  split
  · rename_i hm
    split
    · rename_i hu
      refine safe_visit hi hs (hi.on_succ hlink) fun x hx => ?_
      rw [(hs.knows.removed hx).2.2] at hu
      exact absurd hu Unlink.noConfusion
    · exact ⟨hs, hit, rfl, hm⟩
  · rename_i hm
    have hm' : h.marked f.level item = false := Bool.not_eq_true _ ▸ hm
    refine ⟨hs, hit, hi.on_succ hlink, ha.next ?_, fun hkey => ?_⟩
    · rintro x hx hre rfl
      have hrem := (hs.knows.removed hx).1
      rw [hi.marked_of_dead hrem.ne_zero hlink hrem.dead] at hm'
      exact absurd hm' (by simp)
    · -- the live node with the key is another one than the new node, which is dead then
      cases c with
      | lookup | cas | clean | remove | unlinkRemoved => trivial
      | relink key n m level =>
        intro hl
        obtain ⟨hb, hpos⟩ := hs.knows
        have hbottom : g.linked n 0 := (hb.linked 0).mpr hpos
        have hne : n ≠ item := by
          rintro rfl
          exact absurd ((hb.linked f.level).mp hlink) hl.not_gt
        have hdead : h.marked 0 n = true := by
          by_contra hlive
          rw [Bool.not_eq_true] at hlive
          refine hne (hi.live_unique hb.ne_zero hit0 hbottom
            (hi.linked_of_le (Nat.zero_le _) hlink) hlive ?_ (hb.key_eq.trans hkey.symm))
          exact hi.unmarked_below hlink hm' (Nat.zero_le _)
        refine hi.sealed_of_dead hb.ne_zero hbottom hdead level (.inr hb.kept) ?_
        rw [hb.levels]
        exact hlv.1.2

/-- A search unlinks a marked node. -/
theorem keeps_findUnlink {item : ℕ} {next : Link} (hi : Inv h g)
    (hs : (Pc.findUnlink c f item next).Safe t h g)
    (hstep : step h (.findUnlink c f item next) .resume = some (h', pc')) :
    Keeps t h g h' g pc' := by
  obtain ⟨hs, hit, rfl, hm⟩ := hs
  simp only [step] at hstep
  split at hstep
  · rename_i hcas
    cases hstep
    have hdoes : ∀ u, Does u h g _ g := fun u => (Does.unlink hi u hs.stands.linked hcas hm).1
    have hr : Rely t h g _ g := (hdoes (t + 1)).others t (Nat.lt_succ_self t).ne
    have hs' := hs.stable hi hr
    have hinv := (hdoes t).inv
    have hnext : (h.setNext f.pred f.level ⟨(h.next item f.level).node, false⟩).next f.pred f.level
        = ⟨(h.next item f.level).node, false⟩ := by
      rw [h.next_setNext, if_pos ⟨rfl, rfl⟩]
    refine ⟨hdoes t, safe_visit hinv hs' ?_ ?_⟩
    · exact (hi.on_succ (hit item rfl).2).stable hr.grows
    · have ha := hinv.ahead hs'.knows hs'.stands (congrArg Link.mark hnext)
      rw [Heap.succ, hnext] at ha
      exact ha
  · split at hstep
    · cases hstep
      exact .same hi hs.knows
    · rename_i hmp
      cases hstep
      have hmp' : h.marked f.level f.pred = false := Bool.not_eq_true _ ▸ hmp
      refine .same hi (safe_visit hi hs (hi.on_succ hs.stands.linked) ?_)
      exact hi.ahead hs.knows hs.stands hmp'

/-- A search compares keys. -/
theorem keeps_findKey {item : ℕ} {next : Link} (hi : Inv h g)
    (hs : (Pc.findKey c f item next).Safe t h g)
    (hok : c.unlink ≠ .dont → Exact (h.node item).key c.key)
    (hstep : step h (.findKey c f item next) .resume = some (h', pc')) :
    Keeps t h g h' g pc' := by
  obtain ⟨hs, hit, hn, ha, htie⟩ := hs
  obtain ⟨hit0, hlink⟩ := hit item rfl
  simp only [step] at hstep
  split at hstep
  · rename_i hstop
    cases hstep
    have hs' : Searching t h g c { f with d := keyDiff (h.node item).key c.key } :=
      ⟨hs.knows, hs.stands, hs.path, hs.swept⟩
    refine .same hi (safe_levelDone hi hs' (fun hn => ?_) (fun x hx hre => ?_) fun s hs => ?_)
    · refine ⟨hs.stands.linked, hs.stands.entry_before hn, fun s hs => ?_⟩
      cases hs
      obtain ⟨hlt, heq⟩ := hok (by rw [Caller.unlink_of_n hn]; exact Unlink.noConfusion)
      refine ⟨hit0, hlink, ?_, htie⟩
      rcases hstop with hd | ⟨hd, -⟩
      · exact (hlt.mp hd).le
      · exact (heq.mp hd).ge
    · obtain ⟨hrem, hkey, hforce⟩ := hs.knows.removed hx
      have hd : 0 < keyDiff (h.node item).key c.key := by
        rcases hstop with hd | ⟨-, hu⟩
        · exact hd
        · exact absurd hforce hu
      have hgt := (hok (by rw [hforce]; exact Unlink.noConfusion)).1.mp hd
      obtain ⟨hne, hreach, -⟩ := ha x hx hre
      rcases ((hi.leads f.level).le_of_reach hlink hreach).2 with heq | hlt
      · exact hne heq
      · have hle := hlt.key_le hit0
        rw [hkey] at hle
        exact absurd hgt hle.not_gt
    · cases hs
      exact ⟨hit0, hlink, fun hu => (hok hu).2⟩
  · rename_i hgo
    cases hstep
    have hs' : Searching t h g c { f with d := keyDiff (h.node item).key c.key, pred := item } := by
      refine ⟨hs.knows, ⟨hlink, fun hu => .inr ?_⟩, hs.path, hs.swept⟩
      obtain ⟨hlt, heq⟩ := hok hu
      rw [not_or, hlt, heq] at hgo
      obtain ⟨hle, hstop⟩ := hgo
      rcases (not_lt.mp hle).lt_or_eq with hlt' | heq'
      · exact .inl hlt'
      · exact .inr ⟨by_contra fun hf => hstop ⟨heq', hf⟩, heq'⟩
    exact .same hi (safe_visit hi hs' hn ha)

/-! ### `sl_cas` -/

/-- The new node is allocated. -/
theorem keeps_casAlloc {n : ℕ} {path : Path} (hi : Inv h g) (hn : n ≤ h.highWater)
    (hs : (Pc.casAlloc args n path).Safe t h g) :
    Keeps t h g (h.alloc args n path.succs)
      { g with owner := Function.update g.owner h.brk t } (.casBottom args ⟨h.brk, n, path⟩) := by
  have hdoes := Does.alloc (t := t) hi args path.succs hn
  refine ⟨hdoes, ⟨hi.brk_pos.ne', Nat.lt_succ_self _, Function.update_self .., ?_, ?_, ?_, ?_⟩,
    fun l => ?_, fun l hl => ?_⟩
  · rw [h.node_alloc_brk]
  · rw [h.node_alloc_brk]
  · exact fun hg => absurd (hi.given_lt _ hg) (lt_irrefl _)
  · exact fun l => iff_of_false (hi.brk_unlinked l) (Nat.not_lt_zero l)
  · rw [Heap.next, h.node_alloc_brk]
  · exact (hs l hl).stable hi hdoes.grows fun s hsl htie => ⟨htie, hi.lt_brk hsl⟩

/-- What the inserter of the node knows after a link. -/
theorem Building.link {n m : ℕ} (hb : Building t h g key n m level) (p : ℕ) (o : Link) :
    Building t (h.setNext p level o) (g.link n level) key n m (level + 1) where
  ne_zero := hb.ne_zero
  lt_brk := hb.lt_brk
  owner := hb.owner
  key_eq := (h.key_setNext p level o n).trans hb.key_eq
  levels := (h.numLevels_setNext p level o n).trans hb.levels
  kept := hb.kept
  linked := by
    intro l
    constructor
    · rintro (hl | ⟨-, rfl⟩)
      · exact Nat.lt_succ_of_lt ((hb.linked l).mp hl)
      · exact Nat.lt_succ_self l
    · intro hl
      rcases (Nat.lt_succ_iff.mp hl).lt_or_eq with hlt | rfl
      · exact .inl ((hb.linked l).mpr hlt)
      · exact .inr ⟨rfl, rfl⟩

/-- The CAS at the bottom. -/
theorem keeps_casBottom (hi : Inv h g) (hlv : 0 < ins.n) (hs : (Pc.casBottom args ins).Safe t h g)
    (hstep : step h (.casBottom args ins) .resume = some (h', pc')) :
    Keeps t h g h' (g.after t h (.casBottom args ins) .resume) pc' := by
  obtain ⟨hb, hnext, hp⟩ := hs
  simp only [step] at hstep
  simp only [Story.after]
  split at hstep
  · rename_i hcas
    rw [if_pos hcas]
    cases hstep
    have hn0 : ¬ g.linked ins.newItem 0 := fun hl => absurd ((hb.linked 0).mp hl) (lt_irrefl 0)
    obtain ⟨hpl, hbefore, hbehind⟩ := hp 0 hlv
    have hfresh : ∀ l, h.marked l ins.newItem = false := fun l => by rw [Heap.marked, hnext l]
    have hdoes : Does t h g (h.setNext (ins.path.preds 0) 0 ⟨some ins.newItem, false⟩)
        (g.link ins.newItem 0) := by
      refine .link hi hb.ne_zero hb.lt_brk hb.owner hb.kept hn0
        (fun k hk => absurd hk k.not_lt_zero) ?_ (fun _ => hfresh) (fun hr => hn0 hr.linked)
        hpl ?_ hcas ?_ fun b hbs => ?_
      · rw [hb.levels]
        exact hlv
      · rw [hb.key_eq]
        exact hbefore
      · rw [Heap.succ, hnext 0, if_pos hlv]
      · obtain ⟨hb0, -, hle, htie⟩ := hbehind b hbs
        refine ⟨hb0, .inr (.inl ?_)⟩
        rw [hb.key_eq]
        exact lt_of_le_of_ne hle fun heq => (htie heq.symm).1 rfl
    have hb' := hb.link (ins.path.preds 0) ⟨some ins.newItem, false⟩
    refine ⟨hdoes, ?_⟩
    unfold linkLevel
    split
    · refine ⟨hb', Nat.one_pos, fun l hl hlt => ⟨?_, ?_⟩⟩
      · rw [Heap.succ, h.next_setNext_of_ne _ (.inr (by omega)), hnext l, if_pos hlt]
      · have he : Entry (h.setNext (ins.path.preds 0) 0 ⟨some ins.newItem, false⟩)
            (g.link ins.newItem 0) args.key l (ins.path.preds l) (ins.path.succs l)
            fun s => s < ins.newItem :=
          (hp l hlt).stable hi hdoes.grows fun _ _ htie => htie.2
        obtain ⟨hpl', hbefore', hbehind'⟩ := he
        refine ⟨hpl', hbefore', fun s hsl => ?_⟩
        obtain ⟨hs0, hslink, hle, hlt'⟩ := hbehind' s hsl
        refine ⟨hs0, hslink, hle, fun heq => ⟨hlt' heq, ?_⟩⟩
        -- were it live, the bottom level would have the key twice
        by_contra hlive
        rw [Bool.not_eq_true] at hlive
        refine (hlt' heq).ne (hdoes.inv.live_unique hs0 hb.ne_zero
          (hdoes.inv.linked_of_le (Nat.zero_le l) hslink) (.inr ⟨rfl, rfl⟩) hlive ?_
          (heq.trans hb'.key_eq.symm))
        rw [Heap.marked_setNext (congrArg Link.mark hcas)]
        exact hfresh 0
    · trivial
  · rename_i hcas
    rw [if_neg hcas]
    cases hstep
    exact .same hi trivial

/-- The CAS at an upper level. -/
theorem keeps_casLink (hi : Inv h g) (hlv : level < ins.n)
    (hs : (Pc.casLink key ins level).Safe t h g)
    (hok : Timely t h (.casLink key ins level) .resume)
    (hstep : step h (.casLink key ins level) .resume = some (h', pc')) :
    Keeps t h g h' (g.after t h (.casLink key ins level) .resume) pc' := by
  obtain ⟨hb, hpos, hp⟩ := hs
  simp only [step] at hstep
  simp only [Story.after]
  split at hstep
  · rename_i hcas
    rw [if_pos hcas]
    cases hstep
    have hnl : ∀ l, level ≤ l → ¬ g.linked ins.newItem l := fun l hl hn =>
      absurd ((hb.linked l).mp hn) hl.not_gt
    obtain ⟨hsucc, hpl, hbefore, hbehind⟩ := hp level le_rfl hlv
    have hdoes : Does t h g (h.setNext (ins.path.preds level) level ⟨some ins.newItem, false⟩)
        (g.link ins.newItem level) := by
      refine .link hi hb.ne_zero hb.lt_brk hb.owner hb.kept (hnl level le_rfl)
        (fun k hk => (hb.linked k).mpr hk) ?_ (fun h0 => absurd h0 hpos.ne')
        (fun hr => hok hcas hr.val) hpl ?_ hcas hsucc fun b hbs => ?_
      · rw [hb.levels]
        exact hlv
      · rw [hb.key_eq]
        exact hbefore
      · obtain ⟨hb0, -, hle, htie⟩ := hbehind b hbs
        refine ⟨hb0, .inr ?_⟩
        rw [hb.key_eq]
        rcases hle.lt_or_eq with hlt | heq
        · exact .inl hlt
        · exact .inr ⟨hpos.ne', heq, htie heq.symm⟩
    refine ⟨hdoes, ?_⟩
    unfold linkLevel
    split
    · refine ⟨hb.link _ _, Nat.succ_pos level, fun l hl hlt => ?_⟩
      obtain ⟨hsl, he⟩ := hp l (Nat.le_of_succ_le hl) hlt
      refine ⟨?_, he.stable hi hdoes.grows fun s hs htie => ⟨htie.1, ?_⟩⟩
      · rw [Heap.succ, h.next_setNext_of_ne _ (.inr (by omega))]
        exact hsl
      · exact hdoes.grows.mark_sub s 0 (hi.linked_of_le (Nat.zero_le l) hs) htie.2
    · trivial
  · rename_i hcas
    rw [if_neg hcas]
    cases hstep
    exact .same hi ⟨hb, hpos⟩

/-- The loop over the levels of the new node goes on after one whose link is right. -/
theorem Relinking.next {i : ℕ} (hl : Relinking t h g key ins level i)
    (hm : h.marked i ins.newItem = false) (hsucc : h.succ i ins.newItem = ins.path.succs i) :
    (reloadLevel key ins level (i + 1)).Safe t h g := by
  have htie : ∀ l, level ≤ l → l < ins.n → ∀ tie : ℕ → Prop,
      Entry h g key l (ins.path.preds l) (ins.path.succs l) tie := by
    intro l hle hlt tie
    refine (hl.entry l hle hlt).imp fun s ⟨heq, hmark⟩ => ?_
    rw [← heq, hm] at hmark
    exact absurd hmark (by simp)
  have hcorrected : ∀ l, level ≤ l → l < i + 1 → l < ins.n →
      h.succ l ins.newItem = ins.path.succs l := by
    intro l hle hlt hn
    rcases (Nat.lt_succ_iff.mp hlt).lt_or_eq with hlt' | rfl
    · exact hl.corrected l hle hlt' hn
    · exact hsucc
  unfold reloadLevel
  split
  · exact ⟨hl.building, hl.pos, hl.le.trans (Nat.le_succ i), fun l hle hlt => htie l hle hlt _,
      hcorrected⟩
  · rename_i hn
    refine ⟨hl.building, hl.pos, fun l hle hlt => ⟨hcorrected l hle ?_ hlt, htie l hle hlt _⟩⟩
    exact hlt.trans_le (not_lt.mp hn)

/-- The link of the new node is loaded. -/
theorem keeps_casReload {i : ℕ} (hi : Inv h g) (hs : (Pc.casReload key ins level i).Safe t h g)
    (hstep : step h (.casReload key ins level i) .resume = some (h', pc')) :
    Keeps t h g h' g pc' := by
  simp only [step] at hstep
  split at hstep
  · rename_i hold
    cases hstep
    exact .same hi (Relinking.next hs (congrArg Link.mark hold) (congrArg Link.node hold))
  · cases hstep
    exact .same hi ⟨hs, .inl rfl⟩

/-- The links of a node that is built up are corrected at one level. -/
theorem Relinking.store {i : ℕ} (hi : Inv h g) (hl : Relinking t h g key ins level i)
    (hg : Grows h g (h.setNext ins.newItem i ⟨ins.path.succs i, false⟩) g)
    (hm : h.marked i ins.newItem = false) :
    Relinking t (h.setNext ins.newItem i ⟨ins.path.succs i, false⟩) g key ins level i where
  building :=
    { hl.building with
      key_eq := (h.key_setNext _ _ _ _).trans hl.building.key_eq
      levels := (h.numLevels_setNext _ _ _ _).trans hl.building.levels }
  pos := hl.pos
  le := hl.le
  entry l hle hlt := (hl.entry l hle hlt).stable hi hg fun s _ ⟨heq, hmark⟩ => by
    rw [← heq, hm] at hmark
    exact absurd hmark (by simp)
  corrected l hle hlt hn := by
    rw [Heap.succ, h.next_setNext_of_ne _ (.inr hlt.ne)]
    exact hl.corrected l hle hlt hn

/-- The link of the new node is stored. -/
theorem keeps_casStore {i : ℕ} {old : Link} (hi : Inv h g)
    (hs : (Pc.casStore key ins level i old).Safe t h g)
    (hstep : step h (.casStore key ins level i old) .resume = some (h', pc')) :
    Keeps t h g h' (g.after t h (.casStore key ins level i old) .resume) pc' := by
  obtain ⟨hl, hold⟩ := hs
  have hb := hl.building
  have hnl : ¬ g.linked ins.newItem i := fun hn => absurd ((hb.linked i).mp hn) hl.le.not_gt
  have hstore := Does.store hi hb.ne_zero hb.lt_brk hnl hb.owner (ins.path.succs i)
  simp only [step] at hstep
  simp only [Story.after]
  by_cases hm : (h.next ins.newItem i).mark = true
  · rw [if_pos hm] at hstep ⊢
    cases hstep
    refine ⟨?_, trivial⟩
    split
    · rw [if_pos hm] at hstore
      exact hstore
    · exact .give hi hb.lt_brk hb.owner
  · rw [if_neg hm] at hstep ⊢
    rw [if_neg hm] at hstore
    cases hstep
    have hm' : h.marked i ins.newItem = false := Bool.not_eq_true _ ▸ hm
    have heq : h.next ins.newItem i = old := by
      rcases hold with heq | heq
      · exact heq
      · rw [heq] at hm
        exact absurd rfl hm
    rw [if_pos heq]
    refine ⟨hstore, (hl.store hi hstore.grows hm').next ?_ ?_⟩
    · rw [Heap.marked, h.next_setNext, if_pos ⟨rfl, rfl⟩]
    · rw [Heap.succ, h.next_setNext, if_pos ⟨rfl, rfl⟩]

/-! ### `sl_remove` -/

/-- A removal marks the next level below. -/
theorem safe_markLevel {item : ℕ} (ht : Target h g key item)
    (hm : level = 0 → h.marked 0 item = true) (hs : ∀ l, level ≤ l → Sealed h g item l) :
    (markLevel key item level).Safe t h g := by
  cases level with
  | zero => exact ⟨ht, hm rfl⟩
  | succ level => exact ⟨ht, fun l hl => hs l hl⟩

/-- The CAS that marks a level. -/
theorem keeps_removeMark {item : ℕ} {next : Link} (hi : Inv h g)
    (hs : (Pc.removeMark key item level next).Safe t h g)
    (hstep : step h (.removeMark key item level next) .resume = some (h', pc')) :
    Keeps t h g h' g pc' := by
  obtain ⟨ht, hsealed⟩ := hs
  -- marked here, the levels from here on are sealed
  have hdown : ∀ k, Inv k g → Target k g key item → k.marked level item = true →
      (∀ l, level < l → Sealed k g item l) → (markLevel key item level).Safe t k g := by
    intro k _ ht' hm hs'
    refine safe_markLevel ht' (fun h0 => h0 ▸ hm) fun l hl => ?_
    rcases hl.eq_or_lt with rfl | hlt
    · exact fun _ _ => hm
    · exact hs' l hlt
  simp only [step] at hstep
  by_cases heq : h.next item level = next
  · subst heq
    simp only [if_true] at hstep
    have hdoes := Does.mark hi t ht.ne_zero ht.linked hsealed
    have hm : (h.setNext item level ⟨(h.next item level).node, true⟩).marked level item = true := by
      rw [Heap.marked, h.next_setNext, if_pos ⟨rfl, rfl⟩]
    have hsafe := hdown _ hdoes.inv (ht.stable hi hdoes.grows) hm fun l hl =>
      hdoes.grows.sealed_sub item l (hi.lt_brk ht.linked) (hsealed l hl)
    repeat' split at hstep
    all_goals cases hstep
    · exact ⟨hdoes, trivial⟩
    · exact ⟨hdoes, hsafe⟩
    · exact ⟨hdoes, hsafe⟩
  · simp only [if_neg heq] at hstep
    repeat' split at hstep
    all_goals cases hstep
    · exact .same hi trivial
    · rename_i hm _
      exact .same hi (hdown h hi ht hm hsealed)
    · exact .same hi ⟨ht, hsealed⟩

/-- One step of a thread. -/
theorem step_keeps (hi : Inv h g) (hlv : pc.Leveled h.highWater) (hs : pc.Safe t h g)
    (hok : Timely t h pc cmd) (hstep : step h pc cmd = some (h', pc')) :
    Keeps t h g h' (g.after t h pc cmd) pc' := by
  cases pc with
  | returned val =>
    cases cmd with
    | call op => cases op <;> cases hstep <;> exact .same hi trivial
    | rand | resume => cases hstep
  | lookupVal item | removeHighWater key =>
    cases cmd <;> cases hstep
    exact .same hi trivial
  | casRandom args | casHighWater args levels | casCheck key ins =>
    cases cmd <;> simp only [step, reduceCtorEq] at hstep
    repeat' split at hstep
    all_goals
      cases hstep
      try exact .same hi trivial
  | casRaise args =>
    cases cmd <;> cases hstep
    exact ⟨.raise hi t, trivial⟩
  | findStart c path =>
    cases cmd <;> cases hstep
    refine .same hi (safe_descend hs (fun l _ => ⟨hi.root l, fun _ => .inl rfl⟩) ?_ ?_ ?_ ?_)
    · exact fun l hl hn => absurd (hl.trans_lt hn) (Caller.n_le hlv).not_gt
    · intro x hx l hl hre
      have hrem := (Caller.Knows.removed hs hx).1
      have hlink := (hi.leads l).linked_of_reach hre
      obtain ⟨hlt, hlevel⟩ := hi.linked_lt x l hlink hrem.ne_zero
      exact absurd (hlevel.trans_le (hi.height x hrem.ne_zero hlt)) hl.not_gt
    · intro s hs
      cases hs
    · intro h0
      exact absurd h0 (Nat.one_le_iff_ne_zero.mp hi.water_pos)
  | findPred c f =>
    cases cmd with
    | resume => exact keeps_findPred hi hs hstep
    | call | rand => cases hstep
  | findNext c f item =>
    cases cmd <;> cases hstep
    exact .same hi (keeps_findNext hi hlv hs)
  | findUnlink c f item next =>
    cases cmd with
    | resume => exact keeps_findUnlink hi hs hstep
    | call | rand => cases hstep
  | findKey c f item next =>
    cases cmd with
    | resume => exact keeps_findKey hi hs hok hstep
    | call | rand => cases hstep
  | casVal args item =>
    cases cmd <;> simp only [step, reduceCtorEq] at hstep
    repeat' split at hstep
    all_goals cases hstep
    · exact .same hi trivial
    · exact .same hi trivial
    · rename_i hold _
      exact .same hi hold
  | casUpdate args item old =>
    cases cmd <;> simp only [step, reduceCtorEq] at hstep
    split at hstep <;> cases hstep
    · rename_i heq
      exact ⟨.setVal hi t fun h0 => absurd (heq.symm.trans h0) hs, trivial⟩
    · exact .same hi trivial
  | casAlloc args n path =>
    cases cmd <;> cases hstep
    exact keeps_casAlloc hi hlv.2.1 hs
  | casBottom args ins =>
    cases cmd with
    | resume => exact keeps_casBottom hi hlv.1 hs hstep
    | call | rand => cases hstep
  | casLink key ins level =>
    cases cmd with
    | resume => exact keeps_casLink hi hlv.2 hs hok hstep
    | call | rand => cases hstep
  | casReload key ins level i =>
    cases cmd with
    | resume => exact keeps_casReload hi hs hstep
    | call | rand => cases hstep
  | casStore key ins level i old =>
    cases cmd with
    | resume => exact keeps_casStore hi hs hstep
    | call | rand => cases hstep
  | removeLevels key item =>
    cases cmd <;> cases hstep
    have hlevel := (hi.linked_lt item 0 hs.linked hs.ne_zero).2
    refine .same hi (safe_markLevel hs (fun h0 => absurd hlevel (by omega)) fun l hl _ hlt => ?_)
    exact absurd hlt hl.not_gt
  | removeNext key item level =>
    cases cmd <;> cases hstep
    exact .same hi hs
  | removeMark key item level next =>
    cases cmd with
    | resume => exact keeps_removeMark hi hs hstep
    | call | rand => cases hstep
  | removeSwap key item =>
    cases cmd <;> cases hstep
    obtain ⟨ht, hm⟩ := hs
    have hdoes : Does t h g (h.setVal item doesNotExist) g := .setVal hi t fun _ => rfl
    have ht' := ht.stable hi hdoes.grows
    have hdead := hdoes.grows.mark_sub item 0 ht.linked hm
    refine ⟨hdoes, ⟨ht'.ne_zero, ht'.linked, hdead, ?_⟩, ht'.key_eq⟩
    rw [h.val_setVal, if_pos rfl]
  | removeDefer item val =>
    cases cmd <;> cases hstep
    exact ⟨.hand hi t hs.1 hs.2, trivial⟩

end Step

/-! ## Whole runs -/

/-- The local invariant. -/
def Pc.Local (t : ℕ) (s : Heap × Story) (pc : Pc) : Prop :=
  pc.Leveled s.1.highWater ∧ pc.Safe t s.1 s.2

/-- Rely-guarantee for the program with its story. -/
theorem reclaims : RelyGuarantee (withStory (fun _ => step) Story.after)
    (fun t s pc cmd => Timely t s.1 pc cmd) (fun s => Inv s.1 s.2) Pc.Local
    (fun u s s' => Rely u s.1 s.2 s'.1 s'.2) where
  guarantee := by
    intro t s pc cmd s' pc' hi hl hok hstep
    obtain ⟨hstep, hstory⟩ := withStory_eq_some.mp hstep
    obtain ⟨hdoes, hsafe⟩ := step_keeps hi hl.1 hl.2 hok hstep
    rw [← hstory] at hdoes hsafe
    exact ⟨hdoes.inv, ⟨step_leveled hi.water_pos hl.1 hstep, hsafe⟩, hdoes.others⟩
  stable := by
    intro u s s' pc hi hr hl
    exact ⟨hl.1.mono hr.grows.water_le, hl.2.stable hi hr⟩

/-- The invariant holds at the start. -/
theorem init_inv : Inv init.shared Story.init where
  brk_pos := Nat.one_pos
  water_pos := le_rfl
  leads level :=
    { trans := fun _ _ _ => Heap.Below.trans
      irrefl := fun _ => Heap.Below.irrefl
      root_linked := rfl
      root_unmarked := rfl
      link := fun _ _ _ hb => by cases hb
      reached := by
        rintro a rfl _
        exact Chain.Reach.refl 0 }
  linked_lt _ _ ha h0 := absurd ha h0
  linked_down _ _ ha := ha
  height a h0 hlt := absurd (Nat.lt_one_iff.mp hlt) h0
  top _ _ _ h0 ha := absurd ha h0
  handed a ha := by cases ha
  given_lt _ hg := hg.elim

/-- So does what the threads rest on. -/
theorem init_holds : (init.withStory Story.init).Holds (fun s => Inv s.1 s.2) Pc.Local :=
  ⟨init_inv, fun _ => ⟨trivial, trivial⟩⟩

end SkipList
