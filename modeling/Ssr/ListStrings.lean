/-
# The list with string keys

`find_pred` compares by `ns_cmp` and `ll_cas` inserts a clone of its key.  The calls of a single
thread are those of the list on renamed integer keys, so that a list of strings stays sorted and
finds the keys that it holds as long as no search compares the first string behind the place of
its key wrongly.

* `stepBy` — the steps, with the comparison and the clone of the call;
* `step_rename` — they are steps on the renamed keys;
* `Unmisled` — the condition on one call;
* `strings_refine` — the runs.
-/
import Ssr.ListCalls
import Ssr.StringCalls

open Map SortedMap Sequential Chain StringKeys

namespace LinkedList

/-! ## The steps -/

/-- One atomic step of a call: `cmp` compares the key of a node with the argument of the call,
and `newKey` is the clone of that. -/
def stepBy (cmp : ℕ → ℤ) (newKey t : ℕ) (h : Heap) : Pc → Cmd → Option (Heap × Pc)
  | .findKey op pred item next, .resume =>
    let d := cmp (h.node item).key
    if 0 ≤ d then
      if d = 0 then some (h, found op pred item) else some (h, notFound op pred (some item))
    else some (h, visit op item next.node)
  | .casAlloc op new pred item, .resume =>
    some (h.alloc t ⟨newKey, new, ⟨item, false⟩⟩, .casLink op pred item h.brk)
  | pc, c => step t h pc c

/-- The call of the list. -/
def callOp : StringKeys.Call → Op
  | .get key => .lookup key
  | .cas key expectation new => .cas key expectation new
  | .remove key => .remove key

/-- A call with a string key, to its end; the clone has the same string. -/
def execBy (text : ℕ → List Byte) (fuel : ℕ) (h : Heap) (r : StringKeys.Request) :
    Option (ℕ × Heap) :=
  match finish (stepBy (cmpKey text r) r.call.key 0) Pc.input fuel h
    (.findHead (callOp r.call)) with
  | some (h, .returned v) => some (v, h)
  | _ => none

/-! ## Other names for the keys -/

/-- The list with other names for its keys. -/
def Heap.rename (f : ℕ → ℕ) (h : Heap) : Heap :=
  { h with node := fun a => { h.node a with key := f (h.node a).key } }

/-- The call with another key. -/
def Op.withKey (k : ℕ) : Op → Op
  | .lookup _ => .lookup k
  | .cas _ expectation new => .cas k expectation new
  | .remove _ => .remove k

/-- The place in a call with another key. -/
def Pc.withKey (k : ℕ) : Pc → Pc
  | .returned val => .returned val
  | .findHead op => .findHead (op.withKey k)
  | .findNext op pred item => .findNext (op.withKey k) pred item
  | .findKey op pred item next => .findKey (op.withKey k) pred item next
  | .findSkip op pred item => .findSkip (op.withKey k) pred item
  | .findUnlink op pred item next => .findUnlink (op.withKey k) pred item next
  | .findReload op pred item old => .findReload (op.withKey k) pred item old
  | .findDefer op pred item next old => .findDefer (op.withKey k) pred item next old
  | .lookupVal item => .lookupVal item
  | .casAlloc op new pred item => .casAlloc (op.withKey k) new pred item
  | .casLink op pred next newItem => .casLink (op.withKey k) pred next newItem
  | .casVal op expectation new item => .casVal (op.withKey k) expectation new item
  | .casUpdate op expectation new item old => .casUpdate (op.withKey k) expectation new item old
  | .removeNext pred item => .removeNext pred item
  | .removeMark pred item next => .removeMark pred item next
  | .removeSwap pred item next => .removeSwap pred item next
  | .removeUnlink pred item next val => .removeUnlink pred item next val
  | .removeDefer item val => .removeDefer item val

section Rename

variable {f : ℕ → ℕ} {h : Heap} {k : ℕ} {op : Op}

/-- A node that is stored, with other keys. -/
theorem Heap.rename_update (n : ℕ → Node) (a : ℕ) (x : Node) :
    (fun b => { Function.update n a x b with key := f (Function.update n a x b).key })
      = Function.update (fun b => { n b with key := f (n b).key }) a { x with key := f x.key } := by
  funext b
  by_cases hb : b = a
  · subst hb
    simp only [Function.update_self]
  · simp only [Function.update_of_ne hb]

/-- A link is not a key. -/
theorem Heap.next_rename (a : ℕ) : ((h.rename f).node a).next = (h.node a).next := rfl

/-- Nor is a value. -/
theorem Heap.val_rename (a : ℕ) : ((h.rename f).node a).val = (h.node a).val := rfl

/-- A store into a link knows no key. -/
theorem Heap.rename_setNext (a : ℕ) (l : Link) :
    (h.setNext a l).rename f = (h.rename f).setNext a l := by
  simp only [Heap.rename, Heap.setNext, Heap.rename_update]

/-- Nor does a store of a value. -/
theorem Heap.rename_setVal (a v : ℕ) : (h.setVal a v).rename f = (h.rename f).setVal a v := by
  simp only [Heap.rename, Heap.setVal, Heap.rename_update]

/-- A new node gets the new key. -/
theorem Heap.rename_alloc (t : ℕ) (n : Node) :
    (h.alloc t n).rename f = (h.rename f).alloc t { n with key := f n.key } := by
  simp only [Heap.rename, Heap.alloc, Heap.rename_update]

/-- A link that is made knows no key. -/
theorem Heap.rename_link (p n : ℕ) : (h.link p n).rename f = (h.rename f).link p n := by
  simp only [Heap.rename, Heap.link, Heap.setNext, Heap.rename_update]

/-- Nor does one that is taken away. -/
theorem Heap.rename_unlink (t p i : ℕ) (l : Option ℕ) :
    (h.unlink t p i l).rename f = (h.rename f).unlink t p i l := by
  simp only [Heap.rename, Heap.unlink, Heap.setNext, Heap.rename_update]

/-- A search that finds a node, with another key. -/
theorem withKey_found (pred item : ℕ) :
    (found op pred item).withKey k = found (op.withKey k) pred item := by
  cases op <;> rfl

/-- One that finds none. -/
theorem withKey_notFound (pred : ℕ) (item : Option ℕ) :
    (notFound op pred item).withKey k = notFound (op.withKey k) pred item := by
  cases op with
  | cas key expectation new =>
    simp only [notFound, Op.withKey]
    split_ifs <;> rfl
  | lookup key => rfl
  | remove key => rfl

/-- One that comes to a node. -/
theorem withKey_visit (pred : ℕ) (item : Option ℕ) :
    (visit op pred item).withKey k = visit (op.withKey k) pred item := by
  cases item with
  | none => exact withKey_notFound pred none
  | some i => rfl

/-- One that has loaded a link. -/
theorem withKey_examine (pred item : ℕ) (next : Link) :
    (examine op pred item next).withKey k = examine (op.withKey k) pred item next := by
  have hhelps : (op.withKey k).helps = op.helps := by cases op <;> rfl
  simp only [examine, hhelps]
  split_ifs <;> rfl

/-- The input of a step is not a key. -/
theorem input_withKey (pc : Pc) : (pc.withKey k).input = pc.input := by
  cases pc <;> rfl

/-- **The steps of a call are those on the renamed keys.** -/
theorem step_rename {cmp : ℕ → ℤ} (hk : cmp k = 0) (h : Heap) (pc : Pc) (t : ℕ) :
    step t (h.rename (label cmp)) (pc.withKey (label cmp k)) .resume
      = (stepBy cmp k t h pc .resume).map
          (Prod.map (Heap.rename (label cmp)) (Pc.withKey (label cmp k))) := by
  set f := label cmp
  cases pc with
  | findKey op pred item next =>
    have hd : keyDiff ((h.rename f).node item).key (op.withKey (f k)).key
        = (cmp (h.node item).key).sign := by
      have hkey : (op.withKey (f k)).key = f k := by cases op <;> rfl
      rw [hkey]
      exact keyDiff_label hk _
    simp only [Pc.withKey, step, stepBy, hd, Int.sign_nonneg_iff, Int.sign_eq_zero_iff_zero]
    split_ifs <;>
      simp only [Option.map_some, Prod.map_apply, withKey_found, withKey_notFound, withKey_visit]
  | casAlloc op new pred item =>
    have hkey : (op.withKey (f k)).key = f k := by cases op <;> rfl
    simp only [Pc.withKey, step, stepBy, hkey, Option.map_some, Prod.map_apply, Heap.rename_alloc]
    rfl
  | returned v | findHead op | findNext op pred item | findSkip op pred item | lookupVal item
  | casVal op expectation new item | removeNext pred item | removeSwap pred item next
  | removeDefer item val =>
    simp only [Pc.withKey, step, stepBy]
    simp only [Option.map_some, Option.map_none, Prod.map_apply, withKey_visit, withKey_examine,
      Heap.next_rename, Heap.val_rename, Heap.rename_setVal]
    try rfl
  | findReload op pred item old =>
    cases item <;> rfl
  | findDefer op pred item next old =>
    cases item <;> simp only [Pc.withKey, step, stepBy] <;>
      simp only [Option.map_some, Prod.map_apply, withKey_examine, withKey_notFound] <;> rfl
  | findUnlink op pred item next =>
    simp only [Pc.withKey, step, stepBy, apply_ite (Option.map _)]
    refine if_congr Iff.rfl ?_ (if_congr Iff.rfl rfl ?_)
    · simp only [Option.map_some, Prod.map_apply, Heap.rename_unlink]
      rfl
    · simp only [Option.map_some, Prod.map_apply, withKey_visit]
      rfl
  | casLink op pred next newItem =>
    simp only [Pc.withKey, step, stepBy, apply_ite (Option.map _)]
    refine if_congr Iff.rfl ?_ rfl
    simp only [Option.map_some, Prod.map_apply, Heap.rename_link]
    rfl
  | removeUnlink pred item next val =>
    simp only [Pc.withKey, step, stepBy, apply_ite (Option.map _)]
    refine if_congr Iff.rfl ?_ rfl
    simp only [Option.map_some, Prod.map_apply, Heap.rename_unlink]
    rfl
  | removeMark pred item next =>
    simp only [Pc.withKey, step, stepBy, apply_ite (Option.map _)]
    refine if_congr Iff.rfl (if_congr Iff.rfl ?_ ?_) (if_congr Iff.rfl rfl rfl)
    · simp only [Option.map_some, Prod.map_apply, Heap.rename_setNext]
      rfl
    · simp only [Option.map_some, Prod.map_apply, Heap.rename_setNext]
      rfl
  | casUpdate op expectation new item old =>
    simp only [Pc.withKey, step, stepBy, apply_ite (Option.map _)]
    refine if_congr Iff.rfl rfl (if_congr Iff.rfl rfl (if_congr Iff.rfl ?_ rfl))
    simp only [Option.map_some, Prod.map_apply, Heap.rename_setVal]
    rfl

end Rename

/-! ## The list between two calls -/

/-- The nodes of the list are `xs`: none is marked, their strings increase and no value is
`DOES_NOT_EXIST`. -/
structure Heap.Strung (text : ℕ → List Byte) (h : Heap) (xs : List ℕ) : Prop where
  links : Links h.succ 0 xs
  nodup : (0 :: xs).Nodup
  alloc : ∀ a ∈ 0 :: xs, a < h.brk
  unmarked : ∀ a ∈ 0 :: xs, (h.node a).next.mark = false
  sorted : xs.Pairwise fun a b => text (h.node a).key < text (h.node b).key
  vals : ∀ a ∈ xs, (h.node a).val ≠ doesNotExist
  lengths : ∀ a ∈ xs, (text (h.node a).key).length < 2 ^ 31

/-- The list is sorted by its strings, and `m` is what it holds. -/
def Heap.Keeps (text : ℕ → List Byte) (h : Heap) (m : ℕ → Option ℕ) : Prop :=
  ∃ xs, h.Strung text xs ∧ m = get (h.entries xs)

/-- The search of a call is not misled by the first string behind the place of its key. -/
def Unmisled (text : ℕ → List Byte) (h : Heap) (r : StringKeys.Request) : Prop :=
  ∀ p b, h.Reachable p → h.succ p = some b → (p ≠ 0 → text (h.node p).key < text r.call.key) →
    text r.call.key < text (h.node b).key → ¬ r.MisledBy text (h.node b).key

section Strung

variable {text : ℕ ↪ List Byte} {rank : ℕ ↪ ℤ} {f : ℕ → ℕ} {h : Heap} {xs : List ℕ}

/-- The entries with other keys. -/
theorem entries_rename (h : Heap) (xs : List ℕ) :
    (h.rename f).entries xs = (h.entries xs).map fun p => (f p.1, p.2) := by
  simp only [Heap.entries, List.map_map]
  rfl

/-- The keys of the list. -/
theorem mem_keys {x : ℕ} : x ∈ (h.entries xs).map Prod.fst ↔ ∃ a ∈ xs, (h.node a).key = x := by
  rw [Heap.entries, List.map_map]
  exact List.mem_map

/-- A list of strings is one of numbers. -/
theorem Heap.Strung.chained (hs : h.Strung text xs)
    (hrank : ∀ a ∈ xs, ∀ b ∈ xs, rank (f (h.node a).key) < rank (f (h.node b).key)
      ↔ text (h.node a).key < text (h.node b).key) : (h.rename f).Chained rank xs :=
  ⟨hs.links, hs.nodup, hs.alloc, hs.unmarked,
    hs.sorted.imp_of_mem fun {a b} ha hb hab => (hrank a ha b hb).mpr hab, hs.vals⟩

/-- One of numbers is one of strings. -/
theorem Heap.Chained.strung (hc : (h.rename f).Chained rank xs)
    (hrank : ∀ a ∈ xs, ∀ b ∈ xs, rank (f (h.node a).key) < rank (f (h.node b).key)
      ↔ text (h.node a).key < text (h.node b).key)
    (hlen : ∀ a ∈ xs, (text (h.node a).key).length < 2 ^ 31) : h.Strung text xs :=
  ⟨hc.links, hc.nodup, hc.alloc, hc.unmarked,
    hc.sorted.imp_of_mem fun {a b} ha hb hab => (hrank a ha b hb).mp hab, hc.vals, hlen⟩

/-- Where the condition holds, the search among the renamed keys makes no wrong comparison. -/
theorem Heap.Strung.sees {r : StringKeys.Request} (hs : h.Strung text xs)
    (hr : (text r.call.key).length < 2 ^ 31) (hok : Unmisled text h r)
    (hrank : ∀ x ∈ r.call.key :: (h.entries xs).map Prod.fst,
      ∀ y ∈ r.call.key :: (h.entries xs).map Prod.fst,
        rank (label (cmpKey text r) x) < rank (label (cmpKey text r) y)
          ↔ text x < text y) :
    (h.rename (label (cmpKey text r))).Sees rank xs
      (label (cmpKey text r) r.call.key) := by
  set k := r.call.key
  set f := label (cmpKey text r)
  have hmem : ∀ a ∈ xs, (h.node a).key ∈ k :: (h.entries xs).map Prod.fst := fun a ha =>
    List.mem_cons_of_mem k (mem_keys.mpr ⟨a, ha, rfl⟩)
  have hdiff : ∀ a, keyDiff (f (h.node a).key) (f k) = (cmpKey text r (h.node a).key).sign :=
    fun a => keyDiff_label (cmpKey_self hr) _
  have hchained : (h.rename f).Chained rank xs :=
    hs.chained fun a ha b hb => hrank _ (hmem a ha) _ (hmem b hb)
  obtain ⟨lo, hi, hlo, hhi, hxs⟩ :=
    split_sorted rank (fun a => ((h.rename f).node a).key) (f k) hchained.sorted
  have hsub : ∀ a, a ∈ lo ∨ a ∈ hi → a ∈ xs := by
    intro a ha
    rcases hxs with rfl | ⟨x, -, rfl⟩
    · exact List.mem_append.mpr ha
    · simp only [List.mem_append, List.mem_cons]
      tauto
  have hbelow : ∀ a ∈ lo, text (h.node a).key < text k := fun a ha =>
    (hrank _ (hmem a (hsub a (Or.inl ha))) k List.mem_cons_self).mp (hlo a ha)
  have habove : ∀ a ∈ hi, text k < text (h.node a).key := fun a ha =>
    (hrank k List.mem_cons_self _ (hmem a (hsub a (Or.inr ha)))).mp (hhi a ha)
  have hbelow_diff : ∀ a ∈ lo, keyDiff (f (h.node a).key) (f k) < 0 := by
    intro a ha
    rw [hdiff, Int.sign_neg_iff]
    exact cmpKey_neg hr (hs.lengths a (hsub a (Or.inl ha))) (hbelow a ha)
  rcases hxs with rfl | ⟨x, hx, rfl⟩
  · refine ⟨lo, hi, (· ∈ hi.head?), ⟨hlo, hhi, hbelow_diff, fun b hb => ?_⟩,
      Or.inl ⟨rfl, fun b hb => hb⟩⟩
    have hbhi : b ∈ hi := List.mem_of_mem_head? hb
    show 0 < keyDiff (f (h.node b).key) (f k)
    rw [hdiff, Int.sign_pos_iff]
    refine cmpKey_pos hr (hs.lengths b (hsub b (Or.inr hbhi))) (habove b hbhi) ?_
    have hp : lo.getLastD 0 ∈ 0 :: lo := getLastD_mem 0 lo
    refine hok (lo.getLastD 0) b (hs.links.reach (List.mem_append_left hi hp)) ?_ ?_
      (habove b hbhi)
    · rw [hs.links.suffix.next_eq]
      exact hb
    · intro hne
      exact hbelow _ ((List.mem_cons.mp hp).resolve_left hne)
  · exact ⟨lo, hi, fun _ => False, ⟨hlo, hhi, hbelow_diff, fun b hb => hb.elim⟩,
      Or.inr ⟨x, hx, rfl⟩⟩

end Strung

/-! ## The calls -/

section Calls

variable {text : ℕ ↪ List Byte} {h : Heap} {r : StringKeys.Request}

/-- A call with another key. -/
theorem callOp_withKey (c : StringKeys.Call) (k : ℕ) :
    (callOp c).withKey k = callOp (c.withKey k) := by
  cases c <;> rfl

/-- A call is that of the list with renamed keys. -/
theorem execOp_rename (hr : (text r.call.key).length < 2 ^ 31) (fuel : ℕ) :
    execOp fuel (h.rename (label (cmpKey text r)))
        (callOp (r.call.withKey (label (cmpKey text r) r.call.key)))
      = (execBy text fuel h r).map (Prod.map id (Heap.rename (label (cmpKey text r)))) := by
  set f := label (cmpKey text r)
  have hprog : ∀ s pc i, Pc.input pc = some i → step 0 (s.rename f) (pc.withKey (f r.call.key)) i
      = (stepBy (cmpKey text r) r.call.key 0 s pc i).map
        (Prod.map (Heap.rename f) (Pc.withKey (f r.call.key))) := by
    intro s pc i hi
    obtain rfl : i = .resume := by
      cases pc <;> cases hi
      all_goals rfl
    exact step_rename (cmpKey_self hr) s pc 0
  have hfinish := finish_map (Heap.rename f) (Pc.withKey (f r.call.key))
    (fun pc => input_withKey pc) hprog fuel h (.findHead (callOp r.call))
  have hstart : (Pc.findHead (callOp r.call)).withKey (f r.call.key)
      = .findHead (callOp (r.call.withKey (f r.call.key))) :=
    congrArg Pc.findHead (callOp_withKey ..)
  rw [hstart] at hfinish
  rw [execOp, execBy, hfinish]
  cases finish (stepBy (cmpKey text r) r.call.key 0) Pc.input fuel h
    (.findHead (callOp r.call)) with
  | none => rfl
  | some q =>
    obtain ⟨g, pc⟩ := q
    cases pc <;> rfl

/-- More fuel changes no result. -/
theorem execBy_mono {fuel fuel' : ℕ} {q : ℕ × Heap} (hle : fuel ≤ fuel')
    (hq : execBy text fuel h r = some q) : execBy text fuel' h r = some q := by
  rw [execBy] at hq ⊢
  split at hq
  · rename_i g v hf
    rw [finish_mono hle hf]
    exact hq
  · cases hq

/-- A call on renamed keys, with what it does to the nodes. -/
theorem changes_of_sees {rank : ℕ ↪ ℤ} {g : Heap} {xs : List ℕ} {c : StringKeys.Call}
    (hc : g.Chained rank xs) (hassert : c.toMap.Asserted) (hs : g.Sees rank xs c.key) :
    OpChanges rank g xs (callOp c) c.toMap := by
  cases c with
  | get key => exact lookup_changes_of_sees hc hs
  | cas key expectation new => exact cas_changes_of_sees hc hassert.1 hs
  | remove key => exact remove_changes_of_sees hc hs

/-- **A call with a string key is one of the map of strings.** -/
theorem Heap.Keeps.call {m : ℕ → Option ℕ} (hR : h.Keeps text m) (hvalid : r.Valid text)
    (hok : Unmisled text h r) :
    ∃ h', Answers (execBy text) h r (specCall m r).1 h' ∧ h'.Keeps text (specCall m r).2 := by
  obtain ⟨xs, hs, rfl⟩ := hR
  obtain ⟨hr, hassert⟩ := hvalid
  set cmp := cmpKey text r with hcmp
  set k := r.call.key with hk
  obtain ⟨rank, hrank⟩ := StringKeys.exists_rank text cmp (k :: (h.entries xs).map Prod.fst)
  have hmem : ∀ a ∈ xs, (h.node a).key ∈ k :: (h.entries xs).map Prod.fst := fun a ha =>
    List.mem_cons_of_mem k (mem_keys.mpr ⟨a, ha, rfl⟩)
  have hc : (h.rename (label cmp)).Chained rank xs :=
    hs.chained fun a ha b hb => hrank _ (hmem a ha) _ (hmem b hb)
  have hkey : (r.call.withKey (label cmp k)).key = label cmp k := by cases r.call <;> rfl
  have hsees : (h.rename (label cmp)).Sees rank xs (r.call.withKey (label cmp k)).key := by
    rw [hkey]
    exact hs.sees hr hok hrank
  have hassert' : (r.call.withKey (label cmp k)).toMap.Asserted := by
    cases hcall : r.call <;> rw [hcall] at hassert <;> exact hassert
  obtain ⟨fuel, g', xs', hexec, hc', hentries, -⟩ := changes_of_sees hc hassert' hsees
  -- the memory that the call leaves, under its own names
  have hrename := execOp_rename (h := h) hr fuel
  rw [hexec fuel le_rfl] at hrename
  obtain ⟨⟨v, h'⟩, hq, hmap⟩ := Option.map_eq_some_iff.mp hrename.symm
  obtain ⟨rfl, rfl⟩ := Prod.mk.inj hmap
  rw [entries_rename, entries_rename] at hentries
  have hsorted : Sorted rank ((h.entries xs).map fun p => (label cmp p.1, p.2)) := by
    rw [← entries_rename]
    exact List.pairwise_map.mpr hc.sorted
  obtain ⟨hv, hget⟩ := looseCall_label (label_injective cmp) hsorted hentries
  have hmem' : ∀ a ∈ xs', (h'.node a).key ∈ k :: (h.entries xs).map Prod.fst := fun a ha =>
    keys_label (label_injective cmp) hentries (mem_keys.mpr ⟨a, ha, rfl⟩)
  refine ⟨h', ⟨fuel, fun fuel' hf => ?_⟩, xs',
    hc'.strung (fun a ha b hb => hrank _ (hmem' a ha) _ (hmem' b hb)) fun a ha => ?_, hget.symm⟩
  · rw [execBy_mono hf hq, entries_rename]
    exact congrArg (fun v => some (v, h')) hv
  · rcases List.mem_cons.mp (hmem' a ha) with heq | hold
    · rw [heq]
      exact hr
    · obtain ⟨b, hb, heq⟩ := mem_keys.mp hold
      rw [← heq]
      exact hs.lengths b hb

/-- The empty list. -/
theorem init_keeps (text : ℕ → List Byte) : init.shared.Keeps text fun _ => none := by
  refine ⟨[], ⟨rfl, by simp, fun a ha => ?_, fun _ _ => rfl, List.Pairwise.nil, by simp, by simp⟩,
    rfl⟩
  obtain rfl : a = 0 := by simpa using ha
  decide

/-- **Runs**: while no search is misled, the list stays sorted by its strings, and every call
returns what the map of strings returns. -/
theorem strings_refine {rs : List StringKeys.Request}
    (hrun : RunMeets (execBy text) (fun h r => r.Valid text ∧ Unmisled text h r) init.shared rs) :
    RunRefines (execBy text) specCall (Heap.Keeps text) init.shared (fun _ => none) rs :=
  runRefines_of_step (fun _ _ _ hR hok => hR.call hok.1 hok.2) (init_keeps text) hrun

end Calls

end LinkedList
