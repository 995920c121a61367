/-
# The skiplist with string keys

`find_preds` compares by `ns_cmp` at every level, and `sl_cas` inserts a clone of its key.  As for
the list, the calls of a single thread are those of the skiplist on labels of the keys.

* `stepBy` — the steps, with the comparison and the clone of the call;
* `step_rename` — they are steps on the labels;
* `Unmisled` — the condition on one call;
* `strings_refine` — the runs.
-/
import Ssr.SkipListCalls
import Ssr.StringCalls

open Map SortedMap Sequential Chain Tower StringKeys
open LinkedList (Link)

namespace SkipList

/-! ## The steps -/

/-- One atomic step of a call: `cmp` compares the key of a node with the argument of the call,
and `newKey` is the clone of that. -/
def stepBy (cmp : ℕ → ℤ) (newKey : ℕ) (h : Heap) : Pc → Cmd → Option (Heap × Pc)
  | .findKey c f item next, .resume =>
    let d := cmp (h.node item).key
    if 0 < d ∨ d = 0 ∧ c.unlink ≠ .force then some (h, levelDone c { f with d := d } (some item))
    else some (h, visit c { f with d := d, pred := item } next.node)
  | .casAlloc args n path, .resume =>
    some (h.alloc { args with key := newKey } n path.succs, .casBottom args ⟨h.brk, n, path⟩)
  | pc, c => step h pc c

/-- The call of the skiplist. -/
def callOp : StringKeys.Call → Op
  | .get key => .lookup key
  | .cas key expectation new => .cas ⟨key, expectation, new⟩
  | .remove key => .remove key

/-- A call with a string key and a draw of `nbd_rand`, to its end; the clone has the same
string. -/
def execBy (text : ℕ → List Byte) (fuel : ℕ) (h : Heap) (r : StringKeys.Request × ℕ) :
    Option (ℕ × Heap) :=
  match step h (.returned doesNotExist) (.call (callOp r.1.call)) with
  | none => none
  | some (h, pc) =>
    match finish (stepBy (cmpKey text r.1) r.1.call.key) (Pc.input r.2) fuel h pc with
    | some (h, .returned v) => some (v, h)
    | _ => none

/-! ## Other names for the keys -/

/-- The skiplist with other names for its keys. -/
def Heap.rename (f : ℕ → ℕ) (h : Heap) : Heap :=
  { h with node := fun a => { h.node a with key := f (h.node a).key } }

/-- The arguments with another key. -/
def Cas.withKey (k : ℕ) (args : Cas) : Cas := { args with key := k }

/-- The call with another key. -/
def Op.withKey (k : ℕ) : Op → Op
  | .lookup _ => .lookup k
  | .cas args => .cas (args.withKey k)
  | .remove _ => .remove k

/-- The caller with another key. -/
def Caller.withKey (k : ℕ) : Caller → Caller
  | .lookup _ => .lookup k
  | .cas args n => .cas (args.withKey k) n
  | .relink _ newItem n level => .relink k newItem n level
  | .clean _ => .clean k
  | .remove _ n => .remove k n
  | .unlinkRemoved _ item val => .unlinkRemoved k item val

/-- The locals with the sign of the last comparison. -/
def Find.signed (f : Find) : Find := { f with d := f.d.sign }

/-- The place in a call with another key. -/
def Pc.withKey (k : ℕ) : Pc → Pc
  | .returned val => .returned val
  | .findStart c path => .findStart (c.withKey k) path
  | .findPred c f => .findPred (c.withKey k) f.signed
  | .findNext c f item => .findNext (c.withKey k) f.signed item
  | .findUnlink c f item next => .findUnlink (c.withKey k) f.signed item next
  | .findKey c f item next => .findKey (c.withKey k) f.signed item next
  | .lookupVal item => .lookupVal item
  | .casRandom args => .casRandom (args.withKey k)
  | .casHighWater args levels => .casHighWater (args.withKey k) levels
  | .casRaise args => .casRaise (args.withKey k)
  | .casVal args item => .casVal (args.withKey k) item
  | .casUpdate args item old => .casUpdate (args.withKey k) item old
  | .casAlloc args n path => .casAlloc (args.withKey k) n path
  | .casBottom args ins => .casBottom (args.withKey k) ins
  | .casLink _ ins level => .casLink k ins level
  | .casReload _ ins level i => .casReload k ins level i
  | .casStore _ ins level i old => .casStore k ins level i old
  | .casCheck _ ins => .casCheck k ins
  | .removeHighWater _ => .removeHighWater k
  | .removeLevels _ item => .removeLevels k item
  | .removeNext _ item level => .removeNext k item level
  | .removeMark _ item level next => .removeMark k item level next
  | .removeSwap _ item => .removeSwap k item
  | .removeDefer item val => .removeDefer item val

section Rename

variable {f : ℕ → ℕ} {h : Heap} {k : ℕ} {c : Caller} {g : Find}

/-- A node that is stored, with other keys. -/
theorem Heap.rename_update (n : ℕ → Node) (a : ℕ) (x : Node) :
    (fun b => { Function.update n a x b with key := f (Function.update n a x b).key })
      = Function.update (fun b => { n b with key := f (n b).key }) a { x with key := f x.key } := by
  funext b
  by_cases hb : b = a
  · subst hb
    simp only [Function.update_self]
  · simp only [Function.update_of_ne hb]

/-- A store into a link knows no key. -/
theorem Heap.rename_setNext (a level : ℕ) (l : Link) :
    (h.setNext a level l).rename f = (h.rename f).setNext a level l := by
  simp only [Heap.rename, Heap.setNext, Heap.rename_update]

/-- A CAS on a link. -/
theorem Heap.rename_setNext_if (h : Heap) (a level : ℕ) (old new : Link) :
    (if (h.rename f).next a level = old then (h.rename f).setNext a level new else h.rename f)
      = (if h.next a level = old then h.setNext a level new else h).rename f := by
  rw [apply_ite (Heap.rename f), Heap.rename_setNext]
  rfl

/-- Nor does a store of a value. -/
theorem Heap.rename_setVal (a v : ℕ) : (h.setVal a v).rename f = (h.rename f).setVal a v := by
  simp only [Heap.rename, Heap.setVal, Heap.rename_update]

/-- A new node gets the new key. -/
theorem Heap.rename_alloc (args : Cas) (n : ℕ) (succs : ℕ → Option ℕ) :
    (h.alloc args n succs).rename f = (h.rename f).alloc (args.withKey (f args.key)) n succs := by
  simp only [Heap.rename, Heap.alloc, Heap.rename_update]
  rfl

/-- The number of levels is not a key. -/
theorem n_withKey : (c.withKey k).n = c.n := by
  cases c <;> rfl

/-- Nor is the way in which a caller unlinks. -/
theorem unlink_withKey : (c.withKey k).unlink = c.unlink := by
  cases c <;> rfl

/-- An insertion goes on with another key. -/
theorem withKey_reloadLevel (key : ℕ) (ins : Insert) (level i : ℕ) :
    (reloadLevel key ins level i).withKey k = reloadLevel k ins level i := by
  simp only [reloadLevel]
  split_ifs <;> rfl

/-- So it does with its upper levels. -/
theorem withKey_linkLevel (key : ℕ) (ins : Insert) (level : ℕ) :
    (linkLevel key ins level).withKey k = linkLevel k ins level := by
  simp only [linkLevel]
  split_ifs <;> rfl

/-- So does a removal. -/
theorem withKey_markLevel (key item level : ℕ) :
    (markLevel key item level).withKey k = markLevel k item level := by
  cases level <;> rfl

/-- So does a search that returns. -/
theorem withKey_resume (path : Path) (item : Option ℕ) :
    (resume c path item).withKey k = resume (c.withKey k) path item := by
  cases c with
  | cas args n =>
    cases item with
    | some i => rfl
    | none =>
      simp only [resume, Caller.withKey, Cas.withKey]
      split_ifs <;> rfl
  | lookup key => cases item <;> rfl
  | remove key n => cases item <;> rfl
  | relink key newItem n level => exact withKey_reloadLevel ..
  | clean key => rfl
  | unlinkRemoved key item val => rfl

/-- So does one that goes down. -/
theorem withKey_descend (level : ℕ) :
    (descend c g level).withKey k = descend (c.withKey k) g.signed level := by
  cases level with
  | zero =>
    rw [descend, descend, withKey_resume]
    simp only [Find.signed, Int.sign_eq_zero_iff_zero]
  | succ level => rfl

/-- So does one that is done with a level. -/
theorem withKey_levelDone (item : Option ℕ) :
    (levelDone c g item).withKey k = levelDone (c.withKey k) g.signed item := by
  rw [levelDone, levelDone, withKey_descend, n_withKey]
  rfl

/-- So does one that comes to a node. -/
theorem withKey_visit (item : Option ℕ) :
    (visit c g item).withKey k = visit (c.withKey k) g.signed item := by
  cases item with
  | none => exact withKey_levelDone none
  | some i => rfl

/-- So does one that has loaded a link. -/
theorem withKey_examine (item : ℕ) (next : Link) :
    (examine c g item next).withKey k = examine (c.withKey k) g.signed item next := by
  simp only [examine, unlink_withKey]
  split_ifs
  · exact withKey_visit _
  · rfl
  · rfl

/-- The input of a step is not a key. -/
theorem input_withKey (z : ℕ) (pc : Pc) : (pc.withKey k).input z = pc.input z := by
  cases pc <;> rfl

/-- **The steps of a call are those on the labels of the keys.** -/
theorem step_rename {cmp : ℕ → ℤ} (hk : cmp k = 0) {z : ℕ} (h : Heap) (pc : Pc) (i : Cmd)
    (hi : pc.input z = some i) :
    step (h.rename (label cmp)) (pc.withKey (label cmp k)) i
      = (stepBy cmp k h pc i).map
          (Prod.map (Heap.rename (label cmp)) (Pc.withKey (label cmp k))) := by
  set f := label cmp
  cases pc with
  | findKey c g item next =>
    obtain rfl : Cmd.resume = i := Option.some.inj hi
    have hd : keyDiff ((h.rename f).node item).key (c.withKey (f k)).key
        = (cmp (h.node item).key).sign := by
      have hkey : (c.withKey (f k)).key = f k := by cases c <;> rfl
      rw [hkey]
      exact keyDiff_label hk _
    simp only [Pc.withKey, step, stepBy, hd, Int.sign_pos_iff, Int.sign_eq_zero_iff_zero,
      unlink_withKey, apply_ite (Option.map _)]
    refine if_congr Iff.rfl ?_ ?_
    · simp only [Option.map_some, Prod.map_apply, withKey_levelDone]
      rfl
    · simp only [Option.map_some, Prod.map_apply, withKey_visit]
      rfl
  | casAlloc args n path =>
    obtain rfl : Cmd.resume = i := Option.some.inj hi
    simp only [Pc.withKey, step, stepBy]
    simp only [Option.map_some, Prod.map_apply, Heap.rename_alloc]
    rfl
  | casRandom args =>
    obtain rfl : Cmd.rand z = i := Option.some.inj hi
    simp only [Pc.withKey, step, stepBy, apply_ite (Option.map _)]
    rfl
  | returned v => cases hi
  | findStart c path =>
    obtain rfl : Cmd.resume = i := Option.some.inj hi
    simp only [Pc.withKey, step, stepBy]
    simp only [Option.map_some, Prod.map_apply, withKey_descend]
    rfl
  | findPred c g =>
    obtain rfl : Cmd.resume = i := Option.some.inj hi
    simp only [Pc.withKey, step, stepBy, n_withKey, apply_ite (Option.map _)]
    refine if_congr Iff.rfl ?_ (if_congr Iff.rfl rfl ?_)
    · simp only [Option.map_some, Prod.map_apply, withKey_descend]
      rfl
    · simp only [Option.map_some, Prod.map_apply, withKey_visit]
      rfl
  | findNext c g item =>
    obtain rfl : Cmd.resume = i := Option.some.inj hi
    simp only [Pc.withKey, step, stepBy]
    simp only [Option.map_some, Prod.map_apply, withKey_examine]
    rfl
  | findUnlink c g item next =>
    obtain rfl : Cmd.resume = i := Option.some.inj hi
    simp only [Pc.withKey, step, stepBy, apply_ite (Option.map _)]
    refine if_congr Iff.rfl ?_ (if_congr Iff.rfl rfl ?_)
    · simp only [Option.map_some, Prod.map_apply, withKey_visit, Heap.rename_setNext]
      rfl
    · simp only [Option.map_some, Prod.map_apply, withKey_visit]
      rfl
  | lookupVal item | removeHighWater key =>
    obtain rfl : Cmd.resume = i := Option.some.inj hi
    rfl
  | removeNext key item level | removeDefer item val | casRaise args =>
    obtain rfl : Cmd.resume = i := Option.some.inj hi
    rfl
  | casHighWater args levels =>
    obtain rfl : Cmd.resume = i := Option.some.inj hi
    simp only [Pc.withKey, step, stepBy, apply_ite (Option.map _)]
    rfl
  | casVal args item =>
    obtain rfl : Cmd.resume = i := Option.some.inj hi
    simp only [Pc.withKey, step, stepBy, apply_ite (Option.map _)]
    rfl
  | casUpdate args item old =>
    obtain rfl : Cmd.resume = i := Option.some.inj hi
    simp only [Pc.withKey, step, stepBy, apply_ite (Option.map _)]
    refine if_congr Iff.rfl ?_ rfl
    simp only [Option.map_some, Prod.map_apply, Heap.rename_setVal]
    rfl
  | casBottom args ins =>
    obtain rfl : Cmd.resume = i := Option.some.inj hi
    simp only [Pc.withKey, step, stepBy, apply_ite (Option.map _)]
    refine if_congr Iff.rfl ?_ rfl
    simp only [Option.map_some, Prod.map_apply, Heap.rename_setNext, withKey_linkLevel]
    rfl
  | casLink key ins level =>
    obtain rfl : Cmd.resume = i := Option.some.inj hi
    simp only [Pc.withKey, step, stepBy, apply_ite (Option.map _)]
    refine if_congr Iff.rfl ?_ rfl
    simp only [Option.map_some, Prod.map_apply, Heap.rename_setNext, withKey_linkLevel]
  | casReload key ins level i =>
    obtain rfl := Option.some.inj hi
    simp only [Pc.withKey, step, stepBy, apply_ite (Option.map _)]
    refine if_congr Iff.rfl ?_ rfl
    simp only [Option.map_some, Prod.map_apply, withKey_reloadLevel]
  | casCheck key ins =>
    obtain rfl : Cmd.resume = i := Option.some.inj hi
    simp only [Pc.withKey, step, stepBy, apply_ite (Option.map _)]
    rfl
  | removeLevels key item =>
    obtain rfl : Cmd.resume = i := Option.some.inj hi
    simp only [Pc.withKey, step, stepBy]
    simp only [Option.map_some, Prod.map_apply, withKey_markLevel]
    rfl
  | removeSwap key item =>
    obtain rfl : Cmd.resume = i := Option.some.inj hi
    simp only [Pc.withKey, step, stepBy]
    simp only [Option.map_some, Prod.map_apply, Heap.rename_setVal]
    rfl
  | casStore key ins level j old =>
    obtain rfl : Cmd.resume = i := Option.some.inj hi
    have hset := h.rename_setNext_if (f := f) ins.newItem j old ⟨ins.path.succs j, false⟩
    simp only [Pc.withKey, step, stepBy, apply_ite (Option.map _), hset]
    refine if_congr Iff.rfl rfl ?_
    simp only [Option.map_some, Prod.map_apply, withKey_reloadLevel]
  | removeMark key item level next =>
    obtain rfl : Cmd.resume = i := Option.some.inj hi
    have hset := h.rename_setNext_if (f := f) item level next ⟨next.node, true⟩
    simp only [Pc.withKey, step, stepBy, apply_ite (Option.map _), hset]
    refine if_congr Iff.rfl (if_congr Iff.rfl rfl ?_) (if_congr Iff.rfl ?_ rfl)
    · simp only [Option.map_some, Prod.map_apply, withKey_markLevel]
    · simp only [Option.map_some, Prod.map_apply, withKey_markLevel]

end Rename

/-! ## The skiplist between two calls -/

/-- The nodes of the skiplist are the towers `xs`: none is marked, their strings increase and no
value is `DOES_NOT_EXIST`. -/
structure Heap.Strung (text : ℕ → List Byte) (h : Heap) (xs : List ℕ) : Prop where
  links : ∀ level, Links (h.shape.succ level) 0 (h.shape.above level xs)
  nodup : (0 :: xs).Nodup
  alloc : ∀ a ∈ 0 :: xs, a < h.brk
  unmarked : ∀ a ∈ 0 :: xs, ∀ level, (h.next a level).mark = false
  sorted : xs.Pairwise fun a b => text (h.node a).key < text (h.node b).key
  vals : ∀ a ∈ xs, (h.node a).val ≠ doesNotExist
  heights : ∀ a ∈ xs, 0 < (h.node a).numLevels ∧ (h.node a).numLevels ≤ h.highWater
  water : 0 < h.highWater ∧ h.highWater ≤ maxLevels
  lengths : ∀ a ∈ xs, (text (h.node a).key).length < 2 ^ 31

/-- The skiplist is sorted by its strings at every level, and `m` is what it holds. -/
def Heap.Keeps (text : ℕ → List Byte) (h : Heap) (m : ℕ → Option ℕ) : Prop :=
  ∃ xs, h.Strung text xs ∧ m = get (h.shape.entries xs)

/-- The searches of a call are not misled, at any level, by the first string behind the place of
its key; a search that unlinks passes the key itself. -/
def Unmisled (text : ℕ → List Byte) (h : Heap) (r : StringKeys.Request) : Prop :=
  ∀ level p b, Reach (h.shape.succ level) 0 p → h.shape.succ level p = some b →
    (p ≠ 0 → text (h.node p).key < text r.call.key
      ∨ r.call.unlinks = true ∧ (h.node p).key = r.call.key) →
    text r.call.key < text (h.node b).key → ¬ r.MisledBy text (h.node b).key

section Strung

variable {text : ℕ ↪ List Byte} {rank : ℕ ↪ ℤ} {f : ℕ → ℕ} {h : Heap} {xs : List ℕ}

/-- The entries with other keys. -/
theorem entries_rename (h : Heap) (xs : List ℕ) :
    (h.rename f).shape.entries xs = (h.shape.entries xs).map fun p => (f p.1, p.2) := by
  simp only [Shape.entries, List.map_map]
  rfl

/-- The keys of the skiplist. -/
theorem mem_keys {x : ℕ} :
    x ∈ (h.shape.entries xs).map Prod.fst ↔ ∃ a ∈ xs, (h.node a).key = x := by
  rw [Shape.entries, List.map_map]
  exact List.mem_map

/-- A skiplist of strings is one of numbers. -/
theorem Heap.Strung.towers (hs : h.Strung text xs)
    (hrank : ∀ a ∈ xs, ∀ b ∈ xs, rank (f (h.node a).key) < rank (f (h.node b).key)
      ↔ text (h.node a).key < text (h.node b).key) : (h.rename f).Towers rank xs :=
  ⟨⟨hs.links, hs.nodup, hs.alloc,
    hs.sorted.imp_of_mem fun {a b} ha hb hab => (hrank a ha b hb).mpr hab, hs.vals, hs.heights⟩,
    hs.unmarked, hs.water⟩

/-- One of numbers is one of strings. -/
theorem Heap.Towers.strung (ht : (h.rename f).Towers rank xs)
    (hrank : ∀ a ∈ xs, ∀ b ∈ xs, rank (f (h.node a).key) < rank (f (h.node b).key)
      ↔ text (h.node a).key < text (h.node b).key)
    (hlen : ∀ a ∈ xs, (text (h.node a).key).length < 2 ^ 31) : h.Strung text xs :=
  ⟨ht.shape.links, ht.shape.nodup, ht.shape.alloc, ht.unmarked,
    ht.shape.sorted.imp_of_mem fun {a b} ha hb hab => (hrank a ha b hb).mp hab, ht.shape.vals,
    ht.shape.heights, ht.water, hlen⟩

/-- The node before a place at a level. -/
theorem Heap.Strung.pred {lo hi : List ℕ} (hs : h.Strung text (lo ++ hi)) (level : ℕ) :
    Reach (h.shape.succ level) 0 ((h.shape.above level lo).getLastD 0)
      ∧ h.shape.succ level ((h.shape.above level lo).getLastD 0) = (h.shape.above level hi).head?
      ∧ ((h.shape.above level lo).getLastD 0 ≠ 0 →
        (h.shape.above level lo).getLastD 0 ∈ lo) := by
  have hlinks := hs.links level
  rw [above_append] at hlinks
  have hmem := getLastD_mem 0 (h.shape.above level lo)
  refine ⟨hlinks.reach (List.mem_append_left _ hmem), hlinks.suffix.next_eq, fun hne => ?_⟩
  exact (mem_above.mp ((List.mem_cons.mp hmem).resolve_left hne)).1

/-- Where the condition holds, the searches among the labels make no wrong comparison. -/
theorem Heap.Strung.sees {r : StringKeys.Request} (hs : h.Strung text xs)
    (hr : (text r.call.key).length < 2 ^ 31) (hok : Unmisled text h r)
    (hrank : ∀ x ∈ r.call.key :: (h.shape.entries xs).map Prod.fst,
      ∀ y ∈ r.call.key :: (h.shape.entries xs).map Prod.fst,
        rank (label (cmpKey text r) x) < rank (label (cmpKey text r) y) ↔ text x < text y) :
    (h.rename (label (cmpKey text r))).Sees rank xs (label (cmpKey text r) r.call.key)
      r.call.unlinks := by
  set k := r.call.key with hk
  set f := label (cmpKey text r)
  have hmem : ∀ a ∈ xs, (h.node a).key ∈ k :: (h.shape.entries xs).map Prod.fst := fun a ha =>
    List.mem_cons_of_mem k (mem_keys.mpr ⟨a, ha, rfl⟩)
  have hdiff : ∀ a, keyDiff (f (h.node a).key) (f k) = (cmpKey text r (h.node a).key).sign :=
    fun a => keyDiff_label (cmpKey_self hr) _
  have htowers : (h.rename f).Towers rank xs :=
    hs.towers fun a ha b hb => hrank _ (hmem a ha) _ (hmem b hb)
  obtain ⟨lo, hi, hlo, hhi, hxs⟩ :=
    split_sorted rank (fun a => ((h.rename f).node a).key) (f k) htowers.shape.sorted
  have hsub : ∀ a, a ∈ lo ∨ a ∈ hi → a ∈ xs := by
    intro a ha
    rcases hxs with rfl | ⟨x, -, rfl⟩
    · exact List.mem_append.mpr ha
    · simp only [List.mem_append, List.mem_cons]
      tauto
  have hbelow : ∀ a ∈ lo, text (h.node a).key < text k := fun a ha =>
    (hrank _ (hmem a (hsub a (Or.inl ha))) k List.mem_cons_self).mp (hlo a ha)
  have habove : ∀ a ∈ hi, text k < text (h.node a).key := fun a ha =>
    (hrank k List.mem_cons_self _ (hmem a (hsub a (Or.inr ha)))).mp (hhi a ha)
  have hbelow_diff : ∀ a ∈ lo, keyDiff (f (h.node a).key) (f k) < 0 := by
    intro a ha
    rw [hdiff, Int.sign_neg_iff]
    exact cmpKey_neg hr (hs.lengths a (hsub a (Or.inl ha))) (hbelow a ha)
  -- a node behind the place compares right when it follows a node before
  have hfirst : ∀ level p b, Reach (h.shape.succ level) 0 p → h.shape.succ level p = some b →
      (p ≠ 0 → p ∈ lo ∨ r.call.unlinks = true ∧ (h.node p).key = k) → b ∈ hi →
      0 < keyDiff (f (h.node b).key) (f k) := by
    intro level p b hreach hsucc hp hb
    rw [hdiff, Int.sign_pos_iff]
    refine cmpKey_pos hr (hs.lengths b (hsub b (Or.inr hb))) (habove b hb) ?_
    exact hok level p b hreach hsucc (fun hne => (hp hne).imp_left (hbelow p)) (habove b hb)
  refine ⟨lo, hi, fun b => 0 < keyDiff (f (h.node b).key) (f k),
    ⟨hlo, hhi, hbelow_diff, fun b hb => hb⟩, ?_⟩
  rcases hxs with rfl | ⟨x, hx, rfl⟩
  · refine Or.inl ⟨rfl, fun level b hb => ?_⟩
    obtain ⟨hreach, hsucc, hplo⟩ := hs.pred level
    exact hfirst level _ b hreach (hsucc.trans hb) (fun hne => Or.inl (hplo hne))
      (mem_above.mp (List.mem_of_mem_head? hb)).1
  · have hxk : (h.node x).key = k := label_injective _ hx
    refine Or.inr ⟨x, hx, rfl, fun level hl b hb => ?_⟩
    have hbhi : b ∈ hi := (mem_above.mp (List.mem_of_mem_head? hb)).1
    by_cases hlevel : level < (h.node x).numLevels
    · -- the level holds the key: only a search that unlinks comes here
      have hunlinks : r.call.unlinks = true := hl.resolve_right (not_le.mpr hlevel)
      have hlinks := hs.links level
      rw [above_append, above_cons_of_lt hi hlevel] at hlinks
      refine hfirst level x b (hlinks.reach (by simp)) ?_ (fun _ => Or.inr ⟨hunlinks, hxk⟩) hbhi
      exact hlinks.suffix.2.next_eq.trans hb
    · obtain ⟨hreach, hsucc, hplo⟩ := hs.pred level
      rw [above_cons_of_le hi (not_lt.mp hlevel)] at hsucc
      exact hfirst level _ b hreach (hsucc.trans hb) (fun hne => Or.inl (hplo hne)) hbhi

end Strung

/-! ## The calls -/

section Calls

variable {text : ℕ ↪ List Byte} {h : Heap} {r : StringKeys.Request} {z : ℕ}

/-- A call with another key. -/
theorem callOp_withKey (c : StringKeys.Call) (k : ℕ) :
    (callOp c).withKey k = callOp (c.withKey k) := by
  cases c <;> rfl

/-- Where a call starts. -/
theorem step_call (h : Heap) (op : Op) :
    ∃ pc, step h (.returned doesNotExist) (.call op) = some (h, pc)
      ∧ ∀ f k, step (h.rename f) (.returned doesNotExist) (.call (op.withKey k))
        = some (h.rename f, pc.withKey k) := by
  cases op with
  | lookup key => exact ⟨_, rfl, fun _ _ => rfl⟩
  | cas args => exact ⟨_, rfl, fun _ _ => rfl⟩
  | remove key => exact ⟨_, rfl, fun _ _ => rfl⟩

/-- A call is that of the skiplist with the labels. -/
theorem execOp_rename (hr : (text r.call.key).length < 2 ^ 31) (fuel : ℕ) :
    execOp fuel z (h.rename (label (cmpKey text r)))
        (callOp (r.call.withKey (label (cmpKey text r) r.call.key)))
      = (execBy text fuel h (r, z)).map (Prod.map id (Heap.rename (label (cmpKey text r)))) := by
  obtain ⟨pc, hstart, hrename⟩ := step_call h (callOp r.call)
  set f := label (cmpKey text r)
  have hprog : ∀ s pc i, Pc.input z pc = some i → step (s.rename f) (pc.withKey (f r.call.key)) i
      = (stepBy (cmpKey text r) r.call.key s pc i).map
        (Prod.map (Heap.rename f) (Pc.withKey (f r.call.key))) :=
    fun s pc i hi => step_rename (cmpKey_self hr) s pc i hi
  have hfinish := finish_map (Heap.rename f) (Pc.withKey (f r.call.key))
    (fun pc => input_withKey z pc) hprog fuel h pc
  rw [← callOp_withKey, execOp, execBy, hrename, hstart]
  simp only [hfinish]
  cases finish (stepBy (cmpKey text r) r.call.key) (Pc.input z) fuel h pc with
  | none => rfl
  | some q =>
    obtain ⟨g, pc'⟩ := q
    cases pc' <;> rfl

/-- More fuel changes no result. -/
theorem execBy_mono {fuel fuel' : ℕ} {q : ℕ × Heap} (hle : fuel ≤ fuel')
    (hq : execBy text fuel h (r, z) = some q) : execBy text fuel' h (r, z) = some q := by
  obtain ⟨pc, hstart, -⟩ := step_call h (callOp r.call)
  simp only [execBy, hstart] at hq ⊢
  split at hq
  · rename_i g v hf
    rw [finish_mono hle hf]
    exact hq
  · cases hq

/-- A call on labels, with what it does to the nodes. -/
theorem changes_of_sees {rank : ℕ ↪ ℤ} {g : Heap} {xs : List ℕ} {c : StringKeys.Call}
    (hz : z < 32) (ht : g.Towers rank xs) (hassert : c.toMap.Asserted)
    (hs : g.Sees rank xs c.key c.unlinks) : OpChanges rank z g xs (callOp c) c.toMap := by
  cases c with
  | get key => exact lookup_changes_of_sees ht hs
  | cas key expectation new => exact cas_changes_of_sees hz ht hassert.1 hs
  | remove key => exact remove_changes_of_sees ht hs

/-- **A call with a string key is one of the map of strings.** -/
theorem Heap.Keeps.call {m : ℕ → Option ℕ} (hR : h.Keeps text m) (hvalid : r.Valid text)
    (hz : z < 32) (hok : Unmisled text h r) :
    ∃ h', Answers (execBy text) h (r, z) (specCall m r).1 h' ∧ h'.Keeps text (specCall m r).2 := by
  obtain ⟨xs, hs, rfl⟩ := hR
  obtain ⟨hr, hassert⟩ := hvalid
  set cmp := cmpKey text r
  set k := r.call.key
  obtain ⟨rank, hrank⟩ := StringKeys.exists_rank text cmp (k :: (h.shape.entries xs).map Prod.fst)
  have hmem : ∀ a ∈ xs, (h.node a).key ∈ k :: (h.shape.entries xs).map Prod.fst := fun a ha =>
    List.mem_cons_of_mem k (mem_keys.mpr ⟨a, ha, rfl⟩)
  have ht : (h.rename (label cmp)).Towers rank xs :=
    hs.towers fun a ha b hb => hrank _ (hmem a ha) _ (hmem b hb)
  have hkey : (r.call.withKey (label cmp k)).key = label cmp k
      ∧ (r.call.withKey (label cmp k)).unlinks = r.call.unlinks := by
    cases r.call <;> exact ⟨rfl, rfl⟩
  have hsees : (h.rename (label cmp)).Sees rank xs (r.call.withKey (label cmp k)).key
      (r.call.withKey (label cmp k)).unlinks := by
    rw [hkey.1, hkey.2]
    exact hs.sees hr hok hrank
  have hassert' : (r.call.withKey (label cmp k)).toMap.Asserted := by
    cases hcall : r.call <;> rw [hcall] at hassert <;> exact hassert
  obtain ⟨fuel, g', xs', hexec, ht', hentries, -⟩ := changes_of_sees hz ht hassert' hsees
  -- the memory that the call leaves, under its own names
  have hrename := execOp_rename (h := h) (z := z) hr fuel
  rw [hexec fuel le_rfl] at hrename
  obtain ⟨⟨v, h'⟩, hq, hmap⟩ := Option.map_eq_some_iff.mp hrename.symm
  obtain ⟨rfl, rfl⟩ := Prod.mk.inj hmap
  rw [entries_rename, entries_rename] at hentries
  have hsorted : Sorted rank ((h.shape.entries xs).map fun p => (label cmp p.1, p.2)) := by
    rw [← entries_rename]
    exact List.pairwise_map.mpr ht.shape.sorted
  obtain ⟨hv, hget⟩ := looseCall_label (label_injective cmp) hsorted hentries
  have hmem' : ∀ a ∈ xs', (h'.node a).key ∈ k :: (h.shape.entries xs).map Prod.fst := fun a ha =>
    keys_label (label_injective cmp) hentries (mem_keys.mpr ⟨a, ha, rfl⟩)
  refine ⟨h', ⟨fuel, fun fuel' hf => ?_⟩, xs',
    ht'.strung (fun a ha b hb => hrank _ (hmem' a ha) _ (hmem' b hb)) fun a ha => ?_, hget.symm⟩
  · rw [execBy_mono hf hq, entries_rename]
    exact congrArg (fun v => some (v, h')) hv
  · rcases List.mem_cons.mp (hmem' a ha) with heq | hold
    · rw [heq]
      exact hr
    · obtain ⟨b, hb, heq⟩ := mem_keys.mp hold
      rw [← heq]
      exact hs.lengths b hb

/-- The empty skiplist. -/
theorem init_keeps (text : ℕ → List Byte) : init.shared.Keeps text fun _ => none := by
  refine ⟨[], ⟨fun _ => rfl, by simp, fun a ha => ?_, fun _ _ _ => rfl, List.Pairwise.nil, by simp,
    by simp, by decide, by simp⟩, rfl⟩
  obtain rfl : a = 0 := by simpa using ha
  decide

/-- **Runs**: while no search is misled, the skiplist stays sorted by its strings at every level,
and every call returns what the map of strings returns. -/
theorem strings_refine {rs : List (StringKeys.Request × ℕ)}
    (hrun : RunMeets (execBy text)
      (fun h r => r.1.Valid text ∧ r.2 < 32 ∧ Unmisled text h r.1) init.shared rs) :
    RunRefines (execBy text) (fun m r => specCall m r.1) (Heap.Keeps text) init.shared
      (fun _ => none) rs :=
  runRefines_of_step (fun _ _ _ hR hok => hR.call hok.1 hok.2.1 hok.2.2) (init_keeps text) hrun

end Calls

end SkipList
