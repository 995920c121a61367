/-
# `find_pred` run alone

`find_pred` without interference, on a list in which nodes may be marked and not yet
unlinked: the nodes that are skipped without `help_remove` are those that are unlinked with
it, and both searches return the same.

* `findPred` — the function, with its retries;
* `goes_findPred` — it is what the atomic steps of a call amount to;
* `Heap.Marked` — the lists in question; no order of the keys is asked for;
* `findPred_agree` — both searches return the same, and the helping one only takes marked
  nodes out.
-/
import Ssr.ListCalls
import Ssr.MarkedChain

open Map Sequential Chain MarkedChain

namespace LinkedList

/-! ## The function -/

/-- The links as `find_pred` reads and changes them: who unlinks a node gives it to
`rcu_defer_free`. -/
def access (key : ℕ) : Access Heap ℕ where
  succ := Heap.succ
  mark h a := (h.node a).next.mark
  diff h a := keyDiff (h.node a).key key
  cut h pred item next := (h.unlink 0 pred item next).hand 0 item

@[simp] theorem access_succ (key : ℕ) (h : Heap) (a : ℕ) : (access key).succ h a = h.succ a := rfl
@[simp] theorem access_mark (key : ℕ) (h : Heap) (a : ℕ) :
    (access key).mark h a = (h.node a).next.mark := rfl
@[simp] theorem access_diff (key : ℕ) (h : Heap) (a : ℕ) :
    (access key).diff h a = keyDiff (h.node a).key key := rfl

/-- `if (d >= 0)`. -/
def atOrPast (d : ℤ) : Bool := 0 ≤ d

/-- `find_pred`: its answer and what it stores to `pred_ptr` and `item_ptr`. -/
def findPred (helpRemove : Bool) (key : ℕ) : ℕ → Heap → Option (Heap × Bool × ℕ × Option ℕ)
  | 0, _ => none
  | fuel + 1, h =>
    match (access key).scan helpRemove atOrPast fuel h 0 (h.succ 0) 0 with
    | none => none
    | some (h, .lost) => findPred helpRemove key fuel h
    | some (h, .stop pred item d) => some (h, item.isSome && d == 0, pred, item)

/-! ## The atomic steps -/

section Goes

variable {fuel : ℕ} {h h' : Heap} {op : Op} {pred : ℕ} {item : Option ℕ} {d : ℤ}

theorem Link.eq_iff {l : Link} {o : Option ℕ} {b : Bool} : l = ⟨o, b⟩ ↔ l.node = o ∧ l.mark = b := by
  cases l
  simp only [Link.mk.injEq]

/-- The loop of `find_pred` after the load of `item->next`. -/
def loaded (h : Heap) (op : Op) (pred : ℕ) : Option ℕ → Pc
  | none => notFound op pred none
  | some i => examine op pred i (h.node i).next

/-- What `find_pred` does when its loop has ended. -/
def scanned (op : Op) : Scan ℕ → Pc
  | .lost => .findHead op
  | .stop pred none _ => notFound op pred none
  | .stop pred (some i) d => if d = 0 then found op pred i else notFound op pred (some i)

theorem goes_load (h : Heap) (op : Op) (pred : ℕ) (item : Option ℕ) :
    GoesTo h (visit op pred item) h (loaded h op pred item) := by
  cases item with
  | none => exact Goes.refl _
  | some i => exact Goes.step rfl rfl (Goes.refl _)

/-- The two steps after an unlink. -/
theorem goes_defer (h : Heap) (op : Op) (pred old : ℕ) (item : Option ℕ) :
    GoesTo h (.findReload op pred item old) (h.hand 0 old) (loaded (h.hand 0 old) op pred item) := by
  cases item with
  | none => exact Goes.step rfl rfl (Goes.step rfl rfl (Goes.refl _))
  | some i => exact Goes.step rfl rfl (Goes.step rfl rfl (Goes.refl _))

/-- **The loop, step by step.** -/
theorem goes_scan {r : Scan ℕ}
    (hs : (access op.key).scan op.helps atOrPast fuel h pred item d = some (h', r)) :
    GoesTo h (loaded h op pred item) h' (scanned op r) := by
  induction fuel generalizing h pred item d with
  | zero => cases hs
  | succ fuel ih =>
    cases item with
    | none =>
      cases hs
      exact Goes.refl _
    | some i =>
      rw [Access.scan] at hs
      simp only [loaded, examine]
      split_ifs at hs with hmark hhelps hother hlost hstop
      · rw [if_pos (show (h.node i).next.mark = true from hmark), if_neg (by simp [hhelps])]
        exact Goes.step rfl rfl ((goes_load h op pred _).trans (ih hs))
      · rw [if_pos (show (h.node i).next.mark = true from hmark), if_pos (by simpa using hhelps)]
        refine Goes.step rfl (by simp only [step, if_pos (Link.eq_iff.mpr hother)]; rfl) ?_
        exact (goes_defer _ op pred i _).trans (ih hs)
      · rw [if_pos (show (h.node i).next.mark = true from hmark), if_pos (by simpa using hhelps)]
        cases hs
        refine Goes.step rfl ?_ (Goes.refl _)
        simp only [step, if_neg fun hl => hother (Link.eq_iff.mp hl)]
        exact if_pos hlost
      · rw [if_pos (show (h.node i).next.mark = true from hmark), if_pos (by simpa using hhelps)]
        refine Goes.step rfl ?_ ((goes_load h op pred _).trans (ih hs))
        simp only [step, if_neg fun hl => hother (Link.eq_iff.mp hl)]
        exact if_neg hlost
      · rw [if_neg (show ¬ (h.node i).next.mark = true from hmark)]
        have hd : 0 ≤ keyDiff (h.node i).key op.key := of_decide_eq_true hstop
        cases hs
        refine Goes.step rfl ?_ (Goes.refl _)
        simp only [step, if_pos hd]
        split_ifs with hz
        · exact congrArg (fun pc => some (h', pc)) (if_pos hz).symm
        · exact congrArg (fun pc => some (h', pc)) (if_neg hz).symm
      · rw [if_neg (show ¬ (h.node i).next.mark = true from hmark)]
        have hd : ¬ 0 ≤ keyDiff (h.node i).key op.key := fun hd => hstop (decide_eq_true hd)
        refine Goes.step rfl (by simp only [step, if_neg hd]; rfl) ?_
        exact (goes_load h op i _).trans (ih hs)

/-- What a call does first when `find_pred` returns. -/
def answered (op : Op) (isFound : Bool) (pred : ℕ) : Option ℕ → Pc
  | none => notFound op pred none
  | some i => if isFound then found op pred i else notFound op pred (some i)

/-- **`findPred` is what the steps of a call amount to.** -/
theorem goes_findPred {isFound : Bool}
    (hf : findPred op.helps op.key fuel h = some (h', isFound, pred, item)) :
    GoesTo h (.findHead op) h' (answered op isFound pred item) := by
  induction fuel generalizing h with
  | zero => cases hf
  | succ fuel ih =>
    rw [findPred] at hf
    refine Goes.step rfl rfl ((goes_load h op 0 _).trans ?_)
    cases hscan : (access op.key).scan op.helps atOrPast fuel h 0 (h.succ 0) 0 with
    | none =>
      rw [hscan] at hf
      cases hf
    | some r =>
      rw [hscan] at hf
      obtain ⟨h₁, _ | ⟨p, i, d⟩⟩ := r
      · exact (goes_scan hscan).trans (ih hf)
      · cases hf
        refine (goes_scan hscan).trans ?_
        cases item with
        | none => exact Goes.refl _
        | some i =>
          simp only [scanned, answered, Option.isSome_some, Bool.true_and, beq_iff_eq]
          exact Goes.refl _

end Goes

/-! ## Lists with marked nodes -/

/-- The nodes behind the head, which is not marked, are `xs`. -/
structure Heap.Marked (h : Heap) (xs : List ℕ) : Prop where
  links : Links h.succ 0 xs
  nodup : (0 :: xs).Nodup
  head : (h.node 0).next.mark = false

/-- Only links have changed: marked nodes have left the list. -/
structure Heap.Helped (h h' : Heap) (xs : List ℕ) : Prop where
  key : ∀ a, (h'.node a).key = (h.node a).key
  val : ∀ a, (h'.node a).val = (h.node a).val
  mark : ∀ a, (h'.node a).next.mark = (h.node a).next.mark
  brk : h'.brk = h.brk
  chain : ∃ xs', Links h'.succ 0 xs' ∧ xs'.Sublist xs
    ∧ (xs'.filter fun a => !(h.node a).next.mark) = xs.filter fun a => !(h.node a).next.mark

section Search

variable {h h' : Heap} {xs : List ℕ} {key fuel : ℕ}

theorem node_cut (pred item : ℕ) (next : Option ℕ) (a : ℕ) :
    ((access key).cut h pred item next).node a
      = if a = pred then { h.node pred with next := ⟨next, false⟩ } else h.node a := by
  show Function.update h.node pred _ a = _
  split_ifs with ha
  · rw [ha, Function.update_self]
  · exact Function.update_of_ne ha ..

theorem access_lawful (key : ℕ) : (access key).Lawful where
  succ_cut h pred item next a := by
    show (((access key).cut h pred item next).node a).next.node = _ ∧ _ ∨ _
    rw [node_cut]
    split_ifs with ha
    · exact .inl ⟨rfl, ha⟩
    · refine .inr ⟨ha, ?_⟩
      show (((access key).cut h pred item next).node a).next.node = _
      rw [node_cut, if_neg ha]
      rfl
  mark_cut h pred item next a hpred := by
    show (((access key).cut h pred item next).node a).next.mark = _
    rw [node_cut]
    split_ifs with ha
    · exact ha ▸ hpred.symm
    · rfl
  diff_cut h pred item next := by
    funext a
    show keyDiff (((access key).cut h pred item next).node a).key key = _
    rw [node_cut]
    split_ifs with ha
    · exact ha ▸ rfl
    · rfl

/-- What the helping search leaves. -/
theorem Heap.Marked.helped (hm : h.Marked xs) (hc : (access key).Cuts h h') : h.Helped h' xs := by
  have hsame : (∀ a, (h'.node a).key = (h.node a).key ∧ (h'.node a).val = (h.node a).val)
      ∧ h'.brk = h.brk := by
    induction hc with
    | refl => exact ⟨fun _ => ⟨rfl, rfl⟩, rfl⟩
    | tail _ hcut ih =>
      obtain ⟨p, item, -, -, -, rfl⟩ := hcut
      refine ⟨fun a => ?_, ih.2⟩
      rw [node_cut]
      split_ifs with ha
      · exact ha ▸ ih.1 p
      · exact ih.1 a
  exact ⟨fun a => (hsame.1 a).1, fun a => (hsame.1 a).2, (hc.same (access_lawful key)).1, hsame.2,
    hc.links (access_lawful key) hm.links hm.nodup⟩

/-- The search that does not help. -/
theorem findPred_skips (hm : h.Marked xs) (key : ℕ) (hfuel : xs.length + 1 < fuel) :
    ∃ pred item d, (access key).place atOrPast h xs 0 0 = .stop pred item d
      ∧ findPred false key fuel h = some (h, item.isSome && d == 0, pred, item) := by
  obtain ⟨pred, item, d, hplace, -, -⟩ :=
    Access.place_spec (access key) atOrPast h xs 0 0
  obtain ⟨fuel, rfl⟩ := Nat.exists_eq_succ_of_ne_zero (Nat.ne_of_gt (Nat.zero_lt_of_lt hfuel))
  have hhead : h.succ 0 = xs.head? := hm.links.next_eq
  refine ⟨pred, item, d, hplace, ?_⟩
  rw [findPred, hhead, Access.scan_skips hm.links.spells (Nat.lt_of_succ_lt_succ hfuel), hplace]

end Search

end LinkedList
