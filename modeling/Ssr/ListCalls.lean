/-
# The list by a single thread

`ll_lookup`, `ll_cas`, `ll_remove` and `ll_count` called one after the other: the list
is a sorted finite map with `looseCall`, as long as the truncated differences of the keys
have the sign of one order.

* `exec` — one call, run to its end;
* `Heap.Chained` — the list between two calls;
* `goes_visit` — `find_pred` on such a list;
* `exec_refines` — every call returns what the sorted map returns;
* `OpChanges` — a call takes in one node, takes out one, or does neither.
-/
import Ssr.ListStructure
import Ssr.MapCalls
import Ssr.FrozenChain

open Map SortedMap Sequential Chain
open FrozenChain (View Change)

namespace LinkedList

/-! ## Calls -/

/-- The input that a running call wants. -/
def Pc.input : Pc → Option Cmd
  | .returned _ => none
  | _ => some .resume

/-- A call of one of the three functions, to its end. -/
def execOp (fuel : ℕ) (h : Heap) (op : Op) : Option (ℕ × Heap) :=
  match finish (step 0) Pc.input fuel h (.findHead op) with
  | some (h, .returned v) => some (v, h)
  | _ => none

/-- The loop of `ll_count`. -/
def llCount (h : Heap) : ℕ → Option ℕ → ℕ → Option ℕ
  | 0, _, _ => none
  | _ + 1, none, count => some count
  | fuel + 1, some item, count =>
    llCount h fuel (h.node item).next.node
      (if (h.node item).next.mark then count else count + 1)

/-- A call; there is no `ll_min_key`. -/
def exec (fuel : ℕ) (h : Heap) : Map.Call → Option (ℕ × Heap)
  | .get key => execOp fuel h (.lookup key)
  | .cas key expectation new => execOp fuel h (.cas key expectation new)
  | .remove key => execOp fuel h (.remove key)
  | .count => (llCount h fuel (h.node 0).next.node 0).map fun n => (n, h)
  | .minKey => none

/-! ## The list between two calls -/

/-- The keys and values of the nodes. -/
def Heap.entries (h : Heap) (xs : List ℕ) : List (ℕ × ℕ) :=
  xs.map fun a => ((h.node a).key, (h.node a).val)

/-- The links, marks and keys. -/
def Heap.view (h : Heap) : View where
  succ := h.succ
  mark a := (h.node a).next.mark
  key a := (h.node a).key
  brk := h.brk

/-- The nodes of the list are `xs`: none is marked, their keys increase and no value is
`DOES_NOT_EXIST`. -/
structure Heap.Chained (rank : ℕ ↪ ℤ) (h : Heap) (xs : List ℕ) : Prop where
  links : Links h.succ 0 xs
  nodup : (0 :: xs).Nodup
  alloc : ∀ a ∈ 0 :: xs, a < h.brk
  unmarked : ∀ a ∈ 0 :: xs, (h.node a).next.mark = false
  sorted : xs.Pairwise fun a b => rank (h.node a).key < rank (h.node b).key
  vals : ∀ a ∈ xs, (h.node a).val ≠ doesNotExist

/-- The list holds the map `m`. -/
def Heap.Refines (rank : ℕ ↪ ℤ) (h : Heap) (m : List (ℕ × ℕ)) : Prop :=
  ∃ xs, h.Chained rank xs ∧ m = h.entries xs

/-- The program goes from one place to another. -/
abbrev GoesTo (h : Heap) (pc : Pc) (h' : Heap) (pc' : Pc) : Prop :=
  Goes (step 0) Pc.input (h, pc) (h', pc')

section Find

variable {h : Heap} {op : Op}

/-- The link of a node that is not marked. -/
theorem next_of_unmarked {a : ℕ} {item : Option ℕ} (hmark : (h.node a).next.mark = false)
    (hnext : h.succ a = item) : (h.node a).next = ⟨item, false⟩ := by
  rw [← hnext, ← hmark]
  rfl

/-- What `find_pred` returns when it arrives at `item` behind `pred`. -/
def arrive (h : Heap) (op : Op) (pred : ℕ) : Option ℕ → Pc
  | none => notFound op pred none
  | some b => if keyDiff (h.node b).key op.key = 0 then found op pred b
      else notFound op pred (some b)

/-- **`find_pred`**: it passes the nodes `lo` of smaller keys and stops at the rest. -/
theorem goes_visit {lo hi : List ℕ} {p : ℕ} (hl : Links h.succ p (lo ++ hi))
    (hmark : ∀ a ∈ lo ++ hi, (h.node a).next.mark = false)
    (hlo : ∀ a ∈ lo, keyDiff (h.node a).key op.key < 0)
    (hhi : ∀ b ∈ hi.head?, 0 ≤ keyDiff (h.node b).key op.key) :
    GoesTo h (visit op p (lo ++ hi).head?) h (arrive h op (lo.getLastD p) hi.head?) := by
  induction lo generalizing p with
  | nil =>
    cases hi with
    | nil => exact Goes.refl _
    | cons b bs =>
      have hex : examine op p b (h.node b).next = .findKey op p b (h.node b).next := by
        rw [examine, if_neg]
        simp [hmark b (by simp)]
      have hd : 0 ≤ keyDiff (h.node b).key op.key := hhi b rfl
      refine Goes.step rfl rfl ?_
      rw [hex]
      refine Goes.step rfl ?_ (Goes.refl _)
      simp only [step, if_pos hd, arrive, List.getLastD, List.head?]
      split_ifs <;> rfl
  | cons a lo ih =>
    have hex : examine op p a (h.node a).next = .findKey op p a (h.node a).next := by
      rw [examine, if_neg]
      simp [hmark a (by simp)]
    have hd : ¬ 0 ≤ keyDiff (h.node a).key op.key := not_le.mpr (hlo a List.mem_cons_self)
    have hrest : Links h.succ a (lo ++ hi) := hl.2
    refine Goes.step rfl rfl ?_
    rw [hex]
    refine Goes.step rfl (by simp only [step, if_neg hd]; rfl) ?_
    rw [List.getLastD_cons, show (h.node a).next.node = (lo ++ hi).head? from hrest.next_eq]
    refine ih hrest (fun b hb => hmark b (List.mem_cons_of_mem a hb))
      (fun b hb => hlo b (List.mem_cons_of_mem a hb))

/-- The search of a call. -/
theorem goes_find {rank : ℕ ↪ ℤ} {lo hi : List ℕ} (op : Op) (hc : h.Chained rank (lo ++ hi))
    (hlo : ∀ a ∈ lo, keyDiff (h.node a).key op.key < 0)
    (hhi : ∀ b ∈ hi.head?, 0 ≤ keyDiff (h.node b).key op.key) :
    GoesTo h (.findHead op) h (arrive h op (lo.getLastD 0) hi.head?) := by
  refine Goes.step rfl rfl ?_
  rw [show (h.node 0).next.node = (lo ++ hi).head? from hc.links.next_eq]
  exact goes_visit hc.links (fun a ha => hc.unmarked a (List.mem_cons_of_mem 0 ha)) hlo hhi

end Find

/-! ## What the calls do to the chain -/

/-- The other nodes are as they were. -/
theorem Heap.setNext_node_of_ne (h : Heap) {a b : ℕ} {l : Link} (hb : b ≠ a) :
    (h.setNext a l).node b = h.node b :=
  Function.update_of_ne hb ..

/-- They are so after a store of a value. -/
theorem Heap.setVal_node_of_ne (h : Heap) {a b v : ℕ} (hb : b ≠ a) :
    (h.setVal a v).node b = h.node b :=
  Function.update_of_ne hb ..

section Chained

variable {rank : ℕ ↪ ℤ} {h : Heap} {lo hi : List ℕ} {k : ℕ}

/-- The entries of two parts of the list. -/
theorem Heap.entries_append (h : Heap) (xs ys : List ℕ) :
    h.entries (xs ++ ys) = h.entries xs ++ h.entries ys :=
  List.map_append ..

/-- Nodes with the same keys and values. -/
theorem Heap.entries_congr {h h' : Heap} {xs : List ℕ}
    (hk : ∀ a ∈ xs, (h'.node a).key = (h.node a).key)
    (hv : ∀ a ∈ xs, (h'.node a).val = (h.node a).val) : h'.entries xs = h.entries xs := by
  apply List.map_congr_left
  intro a ha
  rw [hk a ha, hv a ha]

/-- A new node behind the nodes of smaller keys. -/
theorem Heap.Chained.insert (hc : h.Chained rank (lo ++ hi))
    (hlo : ∀ a ∈ lo, rank (h.node a).key < rank k) (hhi : ∀ a ∈ hi, rank k < rank (h.node a).key)
    (h' : Heap) {v : ℕ} (hv : v ≠ doesNotExist) (hbrk : h'.brk = h.brk + 1)
    (hnew : h'.node h.brk = ⟨k, v, ⟨hi.head?, false⟩⟩)
    (hpred : h'.node (lo.getLastD 0) = { h.node (lo.getLastD 0) with next := ⟨some h.brk, false⟩ })
    (hkeep : ∀ a, a ≠ h.brk → a ≠ lo.getLastD 0 → h'.node a = h.node a) :
    h'.Chained rank (lo ++ h.brk :: hi)
      ∧ h'.entries (lo ++ h.brk :: hi) = h.entries lo ++ (k, v) :: h.entries hi := by
  have hne : ∀ a ∈ 0 :: (lo ++ hi), a ≠ h.brk := fun a ha => (hc.alloc a ha).ne
  have hkey : ∀ a ∈ 0 :: (lo ++ hi), (h'.node a).key = (h.node a).key := by
    intro a ha
    by_cases hp : a = lo.getLastD 0
    · rw [hp, hpred]
    · rw [hkeep a (hne a ha) hp]
  have hval : ∀ a ∈ 0 :: (lo ++ hi), (h'.node a).val = (h.node a).val := by
    intro a ha
    by_cases hp : a = lo.getLastD 0
    · rw [hp, hpred]
    · rw [hkeep a (hne a ha) hp]
  constructor
  · refine ⟨?_, nodup_insert hc.nodup fun hm => hne _ hm rfl, ?_, ?_, ?_, ?_⟩
    · refine hc.links.insert hc.nodup (by rw [Heap.succ, hpred]) (by rw [Heap.succ, hnew]) ?_
      intro a ha hp
      rw [Heap.succ, Heap.succ, hkeep a (hne a ha) hp]
    · intro a ha
      rw [hbrk]
      rcases mem_insert_iff.mp ha with rfl | ha
      · exact Nat.lt_succ_self _
      · exact Nat.lt_succ_of_lt (hc.alloc a ha)
    · intro a ha
      by_cases hp : a = lo.getLastD 0
      · rw [hp, hpred]
      · rcases mem_insert_iff.mp ha with rfl | ha
        · rw [hnew]
        · rw [hkeep a (hne a ha) hp]
          exact hc.unmarked a ha
    · apply pairwise_insert
      · refine hc.sorted.imp_of_mem fun {a b} ha hb hab => ?_
        rwa [hkey a (List.mem_cons_of_mem 0 ha), hkey b (List.mem_cons_of_mem 0 hb)]
      · intro a ha
        rw [hkey a (by simp [ha]), hnew]
        exact hlo a ha
      · intro b hb
        rw [hkey b (by simp [hb]), hnew]
        exact hhi b hb
    · intro a ha
      rcases mem_insert_iff.mp (List.mem_cons_of_mem 0 ha) with rfl | ha'
      · rw [hnew]
        exact hv
      · rw [hval a ha']
        refine hc.vals a ?_
        rcases List.mem_cons.mp ha' with rfl | ha'
        · have hlt := hc.alloc 0 List.mem_cons_self
          simp only [List.mem_append, List.mem_cons, hlt.ne, false_or] at ha ⊢
          exact ha
        · exact ha'
  · have hcons : h'.entries (h.brk :: hi) = (k, v) :: h'.entries hi := by
      simp [Heap.entries, hnew]
    rw [Heap.entries_append, hcons,
      Heap.entries_congr (fun a ha => hkey a (by simp [ha])) fun a ha => hval a (by simp [ha]),
      Heap.entries_congr (fun a ha => hkey a (by simp [ha])) fun a ha => hval a (by simp [ha])]

/-- A new value for a node. -/
theorem Heap.Chained.update {x v : ℕ} (hc : h.Chained rank (lo ++ x :: hi))
    (hv : v ≠ doesNotExist) :
    (h.setVal x v).Chained rank (lo ++ x :: hi)
      ∧ (h.setVal x v).entries (lo ++ x :: hi)
        = h.entries lo ++ ((h.node x).key, v) :: h.entries hi := by
  have hnd := hc.nodup
  have hval : ∀ a ≠ x, ((h.setVal x v).node a).val = (h.node a).val := by
    intro a ha
    simp [Heap.setVal, ha]
  have hlo : ∀ a ∈ lo, a ≠ x := by
    rintro a ha rfl
    simp [List.nodup_append] at hnd
    exact hnd.2.2.2 a ha |>.1 rfl
  have hhi : ∀ a ∈ hi, a ≠ x := by
    rintro a ha rfl
    simp [List.nodup_append] at hnd
    exact hnd.2.2.1.1 ha
  constructor
  · refine ⟨?_, hnd, hc.alloc, ?_, ?_, ?_⟩
    · rw [Heap.setVal_succ]
      exact hc.links
    · intro a ha
      rw [Heap.setVal_next]
      exact hc.unmarked a ha
    · simpa using hc.sorted
    · intro a ha
      by_cases hx : a = x
      · subst hx
        simpa [Heap.setVal] using hv
      · rw [hval a hx]
        exact hc.vals a ha
  · have hcons : (h.setVal x v).entries (x :: hi)
        = ((h.node x).key, v) :: (h.setVal x v).entries hi := by
      simp [Heap.entries, Heap.setVal]
    rw [Heap.entries_append, hcons,
      Heap.entries_congr (fun a _ => Heap.setVal_key ..) fun a ha => hval a (hlo a ha),
      Heap.entries_congr (fun a _ => Heap.setVal_key ..) fun a ha => hval a (hhi a ha)]

/-- A node goes. -/
theorem Heap.Chained.remove {x : ℕ} (hc : h.Chained rank (lo ++ x :: hi)) (h' : Heap)
    (hbrk : h'.brk = h.brk)
    (hpred : h'.node (lo.getLastD 0) = { h.node (lo.getLastD 0) with next := ⟨hi.head?, false⟩ })
    (hkeep : ∀ a, a ≠ x → a ≠ lo.getLastD 0 → h'.node a = h.node a) :
    h'.Chained rank (lo ++ hi) ∧ h'.entries (lo ++ hi) = h.entries lo ++ h.entries hi := by
  have hsub : (lo ++ hi).Sublist (lo ++ x :: hi) :=
    (List.sublist_cons_self x hi).append_left lo
  have hmem : ∀ a ∈ 0 :: (lo ++ hi), a ∈ 0 :: (lo ++ x :: hi) :=
    fun a ha => (hsub.cons_cons 0).subset ha
  have hne : ∀ a ∈ 0 :: (lo ++ hi), a ≠ x := by
    rintro a ha rfl
    have hnd := hc.nodup
    have hperm : (0 :: (lo ++ a :: hi)).Perm (a :: 0 :: (lo ++ hi)) :=
      (List.perm_middle.cons 0).trans (List.Perm.swap _ _ _)
    exact (List.nodup_cons.mp ((List.Perm.nodup_iff hperm).mp hnd)).1 ha
  have hkey : ∀ a ∈ 0 :: (lo ++ hi), (h'.node a).key = (h.node a).key := by
    intro a ha
    by_cases hp : a = lo.getLastD 0
    · rw [hp, hpred]
    · rw [hkeep a (hne a ha) hp]
  have hval : ∀ a ∈ 0 :: (lo ++ hi), (h'.node a).val = (h.node a).val := by
    intro a ha
    by_cases hp : a = lo.getLastD 0
    · rw [hp, hpred]
    · rw [hkeep a (hne a ha) hp]
  constructor
  · refine ⟨?_, hc.nodup.sublist (hsub.cons_cons 0), ?_, ?_, ?_, ?_⟩
    · refine hc.links.delete hc.nodup (by rw [Heap.succ, hpred]) ?_
      intro a ha hp
      rw [Heap.succ, Heap.succ, hkeep a (hne a ha) hp]
    · intro a ha
      rw [hbrk]
      exact hc.alloc a (hmem a ha)
    · intro a ha
      by_cases hp : a = lo.getLastD 0
      · rw [hp, hpred]
      · rw [hkeep a (hne a ha) hp]
        exact hc.unmarked a (hmem a ha)
    · refine (hc.sorted.sublist hsub).imp_of_mem fun {a b} ha hb hab => ?_
      rwa [hkey a (List.mem_cons_of_mem 0 ha), hkey b (List.mem_cons_of_mem 0 hb)]
    · intro a ha
      rw [hval a (List.mem_cons_of_mem 0 ha)]
      exact hc.vals a (hsub.subset ha)
  · rw [Heap.entries_append,
      Heap.entries_congr (fun a ha => hkey a (by simp [ha])) fun a ha => hval a (by simp [ha]),
      Heap.entries_congr (fun a ha => hkey a (by simp [ha])) fun a ha => hval a (by simp [ha])]

end Chained

/-! ## The calls -/

/-- A call that goes to its return is run to its end by some fuel. -/
theorem execOp_of_goes {h h' : Heap} {op : Op} {v : ℕ}
    (hg : GoesTo h (.findHead op) h' (.returned v)) :
    ∃ fuel, ∀ fuel' ≥ fuel, execOp fuel' h op = some (v, h') := by
  obtain ⟨fuel, hfuel⟩ := hg.finish rfl
  refine ⟨fuel, fun fuel' hf => ?_⟩
  simp only [execOp, hfuel fuel' hf]

section Calls

variable {rank : ℕ ↪ ℤ} {h : Heap} {lo hi : List ℕ} {x : ℕ}

/-- The search for a key that is not there. -/
theorem goes_absent (op : Op) (hc : h.Chained rank (lo ++ hi))
    (hlo : ∀ a ∈ lo, keyDiff (h.node a).key op.key < 0)
    (hhi : ∀ b ∈ hi.head?, 0 < keyDiff (h.node b).key op.key) :
    GoesTo h (.findHead op) h (notFound op (lo.getLastD 0) hi.head?) := by
  have hg := goes_find op hc hlo fun b hb => (hhi b hb).le
  cases hi with
  | nil => exact hg
  | cons b hi =>
    have hd : keyDiff (h.node b).key op.key ≠ 0 := (hhi b rfl).ne'
    rwa [List.head?_cons, arrive, if_neg hd] at hg

/-- The search for a key that is there. -/
theorem goes_present (op : Op) (hc : h.Chained rank (lo ++ x :: hi))
    (hlo : ∀ a ∈ lo, keyDiff (h.node a).key op.key < 0) (hx : keyDiff (h.node x).key op.key = 0) :
    GoesTo h (.findHead op) h (found op (lo.getLastD 0) x) := by
  have hg := goes_find op hc hlo fun b hb => by
    obtain rfl : x = b := by simpa using hb
    exact hx.ge
  rwa [List.head?_cons, arrive, if_pos hx] at hg

/-- The insertion of a node. -/
theorem goes_insert {key expectation new pred : ℕ} {item : Option ℕ}
    (hnext : (h.node pred).next = ⟨item, false⟩) (hpred : pred < h.brk) :
    GoesTo h (.casAlloc (.cas key expectation new) new pred item)
      ((h.alloc 0 ⟨key, new, ⟨item, false⟩⟩).link pred h.brk) (.returned doesNotExist) := by
  refine Goes.step rfl rfl (Goes.step rfl ?_ (Goes.refl _))
  have hsame : ((h.alloc 0 ⟨key, new, ⟨item, false⟩⟩).node pred).next = ⟨item, false⟩ := by
    rw [Heap.alloc_node_of_ne _ hpred.ne, hnext]
  simp only [step, Op.key, hsame, if_true]

/-- The memory that the removal of `x` behind `pred` leaves. -/
def Heap.removed (h : Heap) (pred x : ℕ) (next : Option ℕ) : Heap :=
  (((h.setNext x ⟨next, true⟩).setVal x doesNotExist).unlink 0 pred x next).hand 0 x

/-- The removal of a node. -/
theorem goes_remove {pred : ℕ} {next : Option ℕ} (hx : (h.node x).next = ⟨next, false⟩)
    (hpred : (h.node pred).next = ⟨some x, false⟩) (hne : pred ≠ x) :
    GoesTo h (.removeNext pred x) (h.removed pred x next) (.returned (h.node x).val) := by
  refine Goes.step rfl rfl ?_
  rw [hx]
  refine Goes.step rfl (by simp only [step, hx, if_true]; rfl) ?_
  refine Goes.step rfl rfl ?_
  have hsame : (((h.setNext x ⟨next, true⟩).setVal x doesNotExist).node pred).next
      = ⟨some x, false⟩ := by
    rw [Heap.setVal_next, Heap.setNext_next_of_ne _ hne, hpred]
  have hval : ((h.setNext x ⟨next, true⟩).node x).val = (h.node x).val := by simp [Heap.setNext]
  refine Goes.step rfl (by simp only [step, hsame, if_true]; rfl) ?_
  refine Goes.step rfl rfl ?_
  rw [hval]
  exact Goes.refl _

end Calls

/-- The search for `k` makes no wrong comparison: it compares the nodes before the place of the
key and, where the key is not there, the first one behind. -/
def Heap.Sees (rank : ℕ ↪ ℤ) (h : Heap) (xs : List ℕ) (k : ℕ) : Prop :=
  ∃ lo hi first, Map.Sight rank (fun a => (h.node a).key) k first lo hi
    ∧ ((xs = lo ++ hi ∧ ∀ b ∈ hi.head?, first b) ∨ ∃ x, (h.node x).key = k ∧ xs = lo ++ x :: hi)

/-- A search finds its way through nodes in order. -/
theorem Heap.Chained.sees {rank : ℕ ↪ ℤ} {h : Heap} {xs : List ℕ} (hc : h.Chained rank xs) {k : ℕ}
    (hord : ∀ p ∈ h.entries xs, Agrees rank p.1 k) : h.Sees rank xs k := by
  obtain ⟨lo, hi, hp, hxs⟩ := exists_place (fun a => (h.node a).key) hc.sorted fun a ha =>
    hord ((h.node a).key, (h.node a).val) (List.mem_map_of_mem ha)
  exact ⟨lo, hi, (· ∈ hi), hp.sight fun b hb => hb,
    hxs.imp_left fun hxs => ⟨hxs, fun b hb => List.mem_of_mem_head? hb⟩⟩

/-- The node before the place of a key. -/
theorem Heap.Chained.pred {rank : ℕ ↪ ℤ} {h : Heap} {lo hi : List ℕ}
    (hc : h.Chained rank (lo ++ hi)) :
    lo.getLastD 0 < h.brk ∧ (h.node (lo.getLastD 0)).next = ⟨hi.head?, false⟩ := by
  have hmem : lo.getLastD 0 ∈ 0 :: (lo ++ hi) :=
    List.mem_append_left hi (getLastD_mem 0 lo)
  exact ⟨hc.alloc _ hmem, next_of_unmarked (hc.unmarked _ hmem) hc.links.suffix.next_eq⟩

section Refines

variable {rank : ℕ ↪ ℤ} {h : Heap} {m : List (ℕ × ℕ)} {lo hi : List ℕ} {k x : ℕ}

/-- The map at the place of a key that is there. -/
theorem entries_present (hx : (h.node x).key = k) :
    h.entries (lo ++ x :: hi) = h.entries lo ++ (k, (h.node x).val) :: h.entries hi := by
  rw [Heap.entries_append, ← hx]
  rfl

/-- A call of one of the three functions refines the call of the map. -/
def OpRefines (rank : ℕ ↪ ℤ) (h : Heap) (m : List (ℕ × ℕ)) (op : Op) (c : Map.Call) : Prop :=
  ∃ fuel h', (∀ fuel' ≥ fuel, execOp fuel' h op = some ((looseCall rank m c).1, h'))
    ∧ h'.Refines rank (looseCall rank m c).2

/-- A call on the nodes `xs`, with what it does to them. -/
def OpChanges (rank : ℕ ↪ ℤ) (h : Heap) (xs : List ℕ) (op : Op) (c : Map.Call) : Prop :=
  ∃ fuel h' xs', (∀ fuel' ≥ fuel, execOp fuel' h op = some ((looseCall rank (h.entries xs) c).1, h'))
    ∧ h'.Chained rank xs' ∧ h'.entries xs' = (looseCall rank (h.entries xs) c).2
    ∧ Change h.view h'.view xs xs'

/-- A call that changes the heap as the map. -/
theorem OpChanges.refines {op : Op} {c : Map.Call} {xs : List ℕ}
    (h' : OpChanges rank h xs op c) : OpRefines rank h (h.entries xs) op c := by
  obtain ⟨fuel, h', xs', hexec, hc, hentries, -⟩ := h'
  exact ⟨fuel, h', hexec, xs', hc, hentries.symm⟩

/-- A call that runs to its end. -/
theorem opChanges_of_goes {op : Op} {c : Map.Call} {h' : Heap} {v : ℕ} {xs xs' : List ℕ}
    (hg : GoesTo h (.findHead op) h' (.returned v)) (hv : (looseCall rank (h.entries xs) c).1 = v)
    (hc : h'.Chained rank xs') (hentries : h'.entries xs' = (looseCall rank (h.entries xs) c).2)
    (hchange : Change h.view h'.view xs xs') : OpChanges rank h xs op c := by
  obtain ⟨fuel, hfuel⟩ := execOp_of_goes hg
  exact ⟨fuel, h', xs', by rwa [hv], hc, hentries, hchange⟩

/-- The links stay. -/
theorem change_of_view_eq {g : Heap} {xs : List ℕ} (hview : g.view = h.view) :
    Change h.view g.view xs xs :=
  hview ▸ Change.same xs rfl rfl rfl rfl

/-- A store of a value leaves the links. -/
theorem Heap.view_setVal (h : Heap) (a v : ℕ) : (h.setVal a v).view = h.view := by
  have hnode : ∀ b, ((h.setVal a v).node b).next = (h.node b).next
      ∧ ((h.setVal a v).node b).key = (h.node b).key := by
    intro b
    by_cases hb : b = a
    · subst hb
      simp [Heap.setVal]
    · rw [Heap.setVal_node_of_ne h hb]
      exact ⟨rfl, rfl⟩
  have hsucc : (h.setVal a v).succ = h.succ := by
    funext b
    exact congrArg (·.node) (hnode b).1
  simp only [Heap.view, hsucc, (hnode _).1, (hnode _).2]
  rfl

/-- A node comes in. -/
theorem Heap.Chained.change_insert {h' : Heap} {v : ℕ} (hc : h.Chained rank (lo ++ hi))
    (hbrk : h'.brk = h.brk + 1) (hnew : h'.node h.brk = ⟨k, v, ⟨hi.head?, false⟩⟩)
    (hpred : h'.node (lo.getLastD 0) = { h.node (lo.getLastD 0) with next := ⟨some h.brk, false⟩ })
    (hkeep : ∀ a, a ≠ h.brk → a ≠ lo.getLastD 0 → h'.node a = h.node a) :
    Change h.view h'.view (lo ++ hi) (lo ++ h.brk :: hi) := by
  refine Change.insert lo hi (congrArg (·.next.node) hnew) hbrk fun a ha => ?_
  show (h'.node a).key = _ ∧ (h'.node a).next.mark = (h.node a).next.mark
    ∧ (h'.node a).next.node = if a = lo.getLastD 0 then some h.brk else (h.node a).next.node
  by_cases hap : a = lo.getLastD 0
  · subst hap
    rw [hpred, if_pos rfl, hc.pred.2]
    exact ⟨rfl, rfl, rfl⟩
  · rw [hkeep a ha hap, if_neg hap]
    exact ⟨rfl, rfl, rfl⟩

/-- A node goes out. -/
theorem Heap.Chained.change_remove {h' : Heap} (hc : h.Chained rank (lo ++ x :: hi))
    (hbrk : h'.brk = h.brk) (hx : (h'.node x).key = (h.node x).key ∧ (h'.node x).next = ⟨hi.head?, true⟩)
    (hpred : h'.node (lo.getLastD 0) = { h.node (lo.getLastD 0) with next := ⟨hi.head?, false⟩ })
    (hkeep : ∀ a, a ≠ x → a ≠ lo.getLastD 0 → h'.node a = h.node a) :
    Change h.view h'.view (lo ++ x :: hi) (lo ++ hi) := by
  have hne : x ≠ lo.getLastD 0 := fun heq => getLastD_notMem hc.nodup (heq ▸ List.mem_cons_self)
  have hnext : (h.node x).next.node = hi.head? := hc.links.suffix.2.next_eq
  refine Change.remove lo hi x hbrk (congrArg (·.mark) hx.2) fun a => ?_
  show (h'.node a).key = (h.node a).key ∧ (a ≠ x → (h'.node a).next.mark = (h.node a).next.mark)
    ∧ (h'.node a).next.node = if a = lo.getLastD 0 then hi.head? else (h.node a).next.node
  by_cases hap : a = lo.getLastD 0
  · subst hap
    rw [hpred, if_pos rfl, hc.pred.2]
    exact ⟨rfl, fun _ => rfl, rfl⟩
  · rw [if_neg hap]
    by_cases hax : a = x
    · subst hax
      exact ⟨hx.1, fun h => absurd rfl h, (congrArg (·.node) hx.2).trans hnext.symm⟩
    · rw [hkeep a hax hap]
      exact ⟨rfl, fun _ => rfl, rfl⟩

/-- `ll_lookup` with a search that finds its way. -/
theorem lookup_changes_of_sees {xs : List ℕ} (hc : h.Chained rank xs) (hs : h.Sees rank xs k) :
    OpChanges rank h xs (.lookup k) (.get k) := by
  obtain ⟨lo, hi, first, hp, ⟨rfl, hfirst⟩ | ⟨x, hx, rfl⟩⟩ := hs
  · have hget : get (h.entries (lo ++ hi)) k = none := by
      rw [Heap.entries_append]
      exact get_absent hp.map_below hp.map_above
    refine opChanges_of_goes (v := doesNotExist) ?_ (by simp [callBy, hget]) hc rfl
      (change_of_view_eq rfl)
    exact goes_absent (.lookup k) hc hp.below_diff fun b hb => hp.first_diff b (hfirst b hb)
  · have hget : get (h.entries (lo ++ x :: hi)) k = some (h.node x).val := by
      rw [entries_present hx]
      exact get_present hp.map_below _
    have hd : keyDiff (h.node x).key k = 0 := hx ▸ keyDiff_self k
    refine opChanges_of_goes (v := (h.node x).val) ?_ (by simp [callBy, hget]) hc rfl
      (change_of_view_eq rfl)
    refine (goes_present (.lookup k) hc hp.below_diff hd).trans ?_
    exact Goes.step rfl rfl (Goes.refl _)

/-- `ll_lookup` changes nothing. -/
theorem lookup_changes {xs : List ℕ} (hc : h.Chained rank xs)
    (hord : (Map.Call.get k).Ordered rank (h.entries xs)) :
    OpChanges rank h xs (.lookup k) (.get k) :=
  lookup_changes_of_sees hc (hc.sees (hord k rfl))

/-- **`ll_lookup`** returns the value of the key. -/
theorem lookup_refines (hR : h.Refines rank m) (hord : (Map.Call.get k).Ordered rank m) :
    OpRefines rank h m (.lookup k) (.get k) := by
  obtain ⟨xs, hc, rfl⟩ := hR
  exact (lookup_changes hc hord).refines

/-- `ll_cas` with a search that finds its way. -/
theorem cas_changes_of_sees {e v : ℕ} {xs : List ℕ} (hc : h.Chained rank xs) (hv : 0 < v)
    (hs : h.Sees rank xs k) : OpChanges rank h xs (.cas k e v) (.cas k e v) := by
  obtain ⟨lo, hi, first, hp, ⟨rfl, hfirst⟩ | ⟨x, hx, rfl⟩⟩ := hs
  · have hget : get (h.entries (lo ++ hi)) k = none := by
      rw [Heap.entries_append]
      exact get_absent hp.map_below hp.map_above
    have hfind := goes_absent (.cas k e v) hc hp.below_diff fun b hb =>
      hp.first_diff b (hfirst b hb)
    by_cases hmet : LooselyMet e none
    · have hgo : ¬ (e ≠ expectDoesNotExist ∧ e ≠ expectWhatever) := by
        rw [looselyMet_none] at hmet
        tauto
      obtain ⟨hlt, hnext⟩ := hc.pred
      simp only [notFound, if_neg hgo] at hfind
      set h' := (h.alloc 0 ⟨k, v, ⟨hi.head?, false⟩⟩).link (lo.getLastD 0) h.brk
      have hnew : h'.node h.brk = ⟨k, v, ⟨hi.head?, false⟩⟩ :=
        (Function.update_of_ne hlt.ne' ..).trans (Heap.alloc_node_brk ..)
      have hpred : h'.node (lo.getLastD 0)
          = { h.node (lo.getLastD 0) with next := ⟨some h.brk, false⟩ } := by
        refine (Function.update_self ..).trans ?_
        rw [Heap.alloc_node_of_ne _ hlt.ne]
      have hkeep : ∀ a, a ≠ h.brk → a ≠ lo.getLastD 0 → h'.node a = h.node a := fun a ha hap =>
        (Function.update_of_ne hap ..).trans (Heap.alloc_node_of_ne _ ha _ _)
      obtain ⟨hc', hentries⟩ := hc.insert hp.below hp.above h' hv.ne' rfl hnew hpred hkeep
      refine opChanges_of_goes (hfind.trans (goes_insert hnext hlt)) (by simp [callBy, hget]) hc' ?_
        (hc.change_insert rfl hnew hpred hkeep)
      simp only [callBy, hget, if_pos hmet]
      rw [hentries, Heap.entries_append]
      exact (put_absent hp.map_below hp.map_above v).symm
    · have hstop : e ≠ expectDoesNotExist ∧ e ≠ expectWhatever := by
        rw [looselyMet_none] at hmet
        tauto
      simp only [notFound, if_pos hstop] at hfind
      refine opChanges_of_goes hfind (by simp [callBy, hget]) hc ?_ (change_of_view_eq rfl)
      simp only [callBy, hget, if_neg hmet]
  · have hget : get (h.entries (lo ++ x :: hi)) k = some (h.node x).val := by
      rw [entries_present hx]
      exact get_present hp.map_below _
    have hval : (h.node x).val ≠ doesNotExist := hc.vals x (by simp)
    have hd : keyDiff (h.node x).key k = 0 := hx ▸ keyDiff_self k
    have hfind := goes_present (.cas k e v) hc hp.below_diff hd
    by_cases he : e = expectDoesNotExist
    · refine opChanges_of_goes (v := (h.node x).val) (hfind.trans ?_) (by simp [callBy, hget]) hc ?_
        (change_of_view_eq rfl)
      · refine Goes.step rfl rfl (Goes.step rfl ?_ (Goes.refl _))
        simp only [step, if_neg hval, if_pos he]
      · simp only [callBy, hget]
        rw [if_neg fun hm => hm he]
    · obtain ⟨hc', hentries⟩ := hc.update hv.ne'
      refine opChanges_of_goes (v := (h.node x).val) (hfind.trans ?_) (by simp [callBy, hget]) hc' ?_
        (change_of_view_eq (h.view_setVal x v))
      · refine Goes.step rfl rfl (Goes.step rfl ?_ (Goes.refl _))
        simp only [step, if_neg hval, if_neg he, if_true]
      · simp only [callBy, hget]
        rw [if_pos (looselyMet_some.mpr he), hentries, entries_present hx, hx]
        exact (put_present hp.map_below hp.map_above _ v).symm

/-- `ll_cas` changes the heap as the map. -/
theorem cas_changes {e v : ℕ} {xs : List ℕ} (hc : h.Chained rank xs) (hv : 0 < v)
    (hord : (Map.Call.cas k e v).Ordered rank (h.entries xs)) :
    OpChanges rank h xs (.cas k e v) (.cas k e v) :=
  cas_changes_of_sees hc hv (hc.sees (hord k rfl))

/-- **`ll_cas`** does what the map does. -/
theorem cas_refines {e v : ℕ} (hR : h.Refines rank m) (hv : 0 < v)
    (hord : (Map.Call.cas k e v).Ordered rank m) :
    OpRefines rank h m (.cas k e v) (.cas k e v) := by
  obtain ⟨xs, hc, rfl⟩ := hR
  exact (cas_changes hc hv hord).refines

/-- `ll_remove` with a search that finds its way. -/
theorem remove_changes_of_sees {xs : List ℕ} (hc : h.Chained rank xs) (hs : h.Sees rank xs k) :
    OpChanges rank h xs (.remove k) (.remove k) := by
  obtain ⟨lo, hi, first, hp, ⟨rfl, hfirst⟩ | ⟨x, hx, rfl⟩⟩ := hs
  · have hget : get (h.entries (lo ++ hi)) k = none := by
      rw [Heap.entries_append]
      exact get_absent hp.map_below hp.map_above
    refine opChanges_of_goes
      (goes_absent (.remove k) hc hp.below_diff fun b hb => hp.first_diff b (hfirst b hb))
      (by simp [callBy, hget]) hc ?_ (change_of_view_eq rfl)
    simp only [callBy, Heap.entries_append]
    exact (erase_absent hp.map_below hp.map_above).symm
  · have hget : get (h.entries (lo ++ x :: hi)) k = some (h.node x).val := by
      rw [entries_present hx]
      exact get_present hp.map_below _
    have hd : keyDiff (h.node x).key k = 0 := hx ▸ keyDiff_self k
    obtain ⟨-, hpred⟩ := hc.pred
    have hne : lo.getLastD 0 ≠ x := by
      intro heq
      exact getLastD_notMem hc.nodup (heq ▸ List.mem_cons_self)
    have hnext : (h.node x).next = ⟨hi.head?, false⟩ :=
      next_of_unmarked (hc.unmarked x (by simp)) hc.links.suffix.2.next_eq
    set h' := h.removed (lo.getLastD 0) x hi.head?
    have hpred' : h'.node (lo.getLastD 0)
        = { h.node (lo.getLastD 0) with next := ⟨hi.head?, false⟩ } := by
      refine (Function.update_self ..).trans ?_
      rw [Heap.setVal_node_of_ne _ hne, Heap.setNext_node_of_ne _ hne]
    have hkeep : ∀ a, a ≠ x → a ≠ lo.getLastD 0 → h'.node a = h.node a := by
      intro a hax hap
      refine (Function.update_of_ne hap ..).trans ?_
      rw [Heap.setVal_node_of_ne _ hax, Heap.setNext_node_of_ne _ hax]
    obtain ⟨hc', hentries⟩ := hc.remove h' rfl hpred' hkeep
    have hx' : (h'.node x).key = (h.node x).key ∧ (h'.node x).next = ⟨hi.head?, true⟩ := by
      have hnode : h'.node x = ((h.setNext x ⟨hi.head?, true⟩).setVal x doesNotExist).node x :=
        Function.update_of_ne hne.symm ..
      rw [hnode]
      simp [Heap.setVal, Heap.setNext]
    refine opChanges_of_goes (v := (h.node x).val)
      ((goes_present (.remove k) hc hp.below_diff hd).trans (goes_remove hnext hpred hne))
      (by simp [callBy, hget]) hc' ?_ (hc.change_remove rfl hx' hpred' hkeep)
    rw [hentries]
    simp only [callBy]
    rw [entries_present hx]
    exact (erase_present hp.map_below hp.map_above _).symm

/-- `ll_remove` changes the heap as the map. -/
theorem remove_changes {xs : List ℕ} (hc : h.Chained rank xs)
    (hord : (Map.Call.remove k).Ordered rank (h.entries xs)) :
    OpChanges rank h xs (.remove k) (.remove k) :=
  remove_changes_of_sees hc (hc.sees (hord k rfl))

/-- **`ll_remove`** does what the map does. -/
theorem remove_refines (hR : h.Refines rank m) (hord : (Map.Call.remove k).Ordered rank m) :
    OpRefines rank h m (.remove k) (.remove k) := by
  obtain ⟨xs, hc, rfl⟩ := hR
  exact (remove_changes hc hord).refines

/-- The loop of `ll_count` over the nodes `xs`. -/
theorem llCount_eq {xs : List ℕ} {p n : ℕ} (hl : Links h.succ p xs)
    (hmark : ∀ a ∈ xs, (h.node a).next.mark = false) :
    ∀ fuel > xs.length, llCount h fuel (h.node p).next.node n = some (n + xs.length) := by
  induction xs generalizing p n with
  | nil =>
    intro fuel hf
    obtain ⟨fuel, rfl⟩ : ∃ f, fuel = f + 1 := ⟨fuel - 1, by omega⟩
    rw [show (h.node p).next.node = none from hl]
    rfl
  | cons a xs ih =>
    intro fuel hf
    obtain ⟨fuel, rfl⟩ : ∃ f, fuel = f + 1 := ⟨fuel - 1, by omega⟩
    rw [show (h.node p).next.node = some a from hl.1]
    simp only [llCount, hmark a List.mem_cons_self]
    have hrec := ih (n := n + 1) hl.2 (fun b hb => hmark b (List.mem_cons_of_mem a hb)) fuel
      (by simpa using hf)
    rw [List.length_cons]
    simpa [Nat.add_assoc, Nat.add_comm 1] using hrec

/-- The calls of the list, with the keys compared as the order says. -/
def Ok (rank : ℕ ↪ ℤ) (m : List (ℕ × ℕ)) (c : Map.Call) : Prop :=
  c ≠ .minKey ∧ c.Asserted ∧ c.Ordered rank m

/-- **Every call of the list is a call of the sorted map.** -/
theorem exec_refines {c : Map.Call} (hR : h.Refines rank m) (hok : Ok rank m c) :
    ∃ fuel h', (∀ fuel' ≥ fuel, exec fuel' h c = some ((looseCall rank m c).1, h'))
      ∧ h'.Refines rank (looseCall rank m c).2 := by
  obtain ⟨hmin, hassert, hord⟩ := hok
  cases c with
  | get key => exact lookup_refines hR hord
  | cas key expectation new => exact cas_refines hR hassert.1 hord
  | remove key => exact remove_refines hR hord
  | count =>
    obtain ⟨xs, hc, rfl⟩ := hR
    refine ⟨xs.length + 1, h, fun fuel' hf => ?_, ⟨xs, hc, rfl⟩⟩
    have hcount := llCount_eq (n := 0) hc.links
      (fun a ha => hc.unmarked a (List.mem_cons_of_mem 0 ha)) fuel' (by omega)
    simp [exec, hcount, callBy, Heap.entries]
  | minKey => exact absurd rfl hmin

/-- The empty list. -/
theorem init_refines (rank : ℕ ↪ ℤ) : init.shared.Refines rank [] := by
  refine ⟨[], ⟨rfl, by simp, ?_, ?_, List.Pairwise.nil, by simp⟩, rfl⟩
  · intro a ha
    obtain rfl : a = 0 := by simpa using ha
    decide
  · intro a _
    rfl

/-- **The list under a sequence of calls** `f c`. -/
theorem calls_refines {ι : Type*} (f : ι → Map.Call) {cs : List ι}
    (hok : Meets (fun m c => looseCall rank m (f c)) (fun m c => Ok rank m (f c)) [] cs) :
    ∃ fuel h, (∀ fuel' ≥ fuel, calls (fun fuel h c => exec fuel h (f c)) fuel' init.shared cs
        = some ((specCalls (fun m c => looseCall rank m (f c)) [] cs).1, h))
      ∧ h.Refines rank (specCalls (fun m c => looseCall rank m (f c)) [] cs).2 :=
  calls_refine (fun _ _ c hR hc => exec_refines (c := f c) hR hc) (init_refines rank) hok

end Refines

end LinkedList
