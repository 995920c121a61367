/-
# Iterating over the list

`ll_iter_begin` and `ll_iter_next`, with complete calls of `ll_cas` and `ll_remove` between
them.  The iterator stands on the node that it returned last.  Three things go wrong:

* `find_pred` stores `NULL` through the `item_ptr` that `ll_iter_begin` does not pass, when it
  reaches the end of the list;
* `ll_iter_next` looks at the mark of the link that it follows, which is that of the node it
  leaves: when that node was removed it skips the next node and not the removed one;
* a key before the start key that comes in behind the node where `ll_iter_begin` stopped is
  returned.

`iteration_faithful_when` says that nothing else does.
-/
import Ssr.Iteration
import Ssr.ListSearch

open Map SortedMap Sequential Chain Iteration MarkedChain
open FrozenChain (View Change Behind)

namespace LinkedList

/-! ## The functions -/

/-- What `ll_iter_begin` does: it stores `NULL` through a `NULL` pointer, or it sets `iter->pred`. -/
inductive Begun where
  | nullDereference
  | opened (pred : ℕ)
  deriving DecidableEq, Repr

/-- `find_pred` ended at `item` and `item_ptr` is `NULL`: the store `*item_ptr = NULL` at the end of
the list is not guarded. -/
def Begun.found (pred : ℕ) : Option ℕ → Begun
  | none => .nullDereference
  | some _ => .opened pred

/-- `ll_iter_begin`. -/
def llIterBegin (fuel : ℕ) (h : Heap) (key : ℕ) : Option Begun :=
  if key ≠ doesNotExist then
    (findPred false key fuel h).map fun r => .found r.2.2.1 r.2.2.2
  else some (.opened 0)

/-- The loop of `ll_iter_next` from `iter->pred` on: the value, what is stored to `key_ptr`, and
the new `iter->pred`. -/
def llIterLoop (h : Heap) : ℕ → ℕ → Option (ℕ × Option ℕ × Option ℕ)
  | 0, _ => none
  | fuel + 1, pred =>
    let item := (h.node pred).next
    match item.node with
    | none => some (doesNotExist, none, none)
    | some next =>
      if item.mark then llIterLoop h fuel next
      else some ((h.node next).val, some (h.node next).key, some next)

/-- `ll_iter_next`. -/
def llIterNext (fuel : ℕ) (h : Heap) : Option ℕ → Option (ℕ × Option ℕ × Option ℕ)
  | none => some (doesNotExist, none, none)
  | some pred => llIterLoop h fuel pred

/-- The iterator as its caller sees it: the value `DOES_NOT_EXIST` is the end. -/
def iterator : Iterator Heap (Option ℕ) Op where
  next fuel h pred := (llIterNext fuel h pred).map fun r =>
    (if r.1 = doesNotExist then none else r.2.1, r.2.2)
  exec fuel h op := (execOp fuel h op).map Prod.snd

/-- The key is in the list: an unmarked node has it. -/
def Heap.Present (h : Heap) (k : ℕ) : Prop :=
  ∃ a, h.Reachable a ∧ a ≠ 0 ∧ (h.node a).next.mark = false ∧ (h.node a).key = k

/-- The call as a call of the map. -/
def Op.toCall : Op → Map.Call
  | .lookup key => .get key
  | .cas key expectation new => .cas key expectation new
  | .remove key => .remove key

/-- The calls between two calls of `ll_iter_next`: the keys are below `2 ^ 31` and the assertions
of `ll_cas` hold. -/
def Proper : Event Op → Prop
  | .next => True
  | .call op => op.toCall.Asserted ∧ ∀ key ∈ op.toCall.key?, key < 2 ^ 31

instance : DecidablePred Proper
  | .next => isTrue trivial
  | .call op => inferInstanceAs (Decidable (_ ∧ ∀ key ∈ op.toCall.key?, key < 2 ^ 31))

/-- When `ll_iter_next` is called, the node it stands on is still in the list and the one behind
is not before the start key, or it was removed and leads to no unmarked node. -/
def Clear (start : ℕ) (s : Session Heap (Option ℕ)) : Event Op → Prop
  | .call _ => True
  | .next => ∀ pred ∈ s.place,
    if (s.state.node pred).next.mark then
      ∀ a, Reach s.state.succ pred a → (s.state.node a).next.mark = true
    else ∀ next, s.state.succ pred = some next → start ≤ (s.state.node next).key

/-! ## The list between two calls -/

section Chained

variable {h : Heap} {xs : List ℕ} {k : ℕ} {op : Op}

theorem Heap.Chained.chained (hc : h.Chained natural xs) : h.view.Chained xs where
  links := hc.links
  nodup := hc.nodup
  alloc := hc.alloc
  unmarked := hc.unmarked
  sorted := hc.sorted.imp fun h => Int.ofNat_lt.mp h

theorem Heap.Chained.present_iff (hc : h.Chained natural xs) :
    h.Present k ↔ ∃ a ∈ xs, (h.node a).key = k := by
  constructor
  · rintro ⟨a, hreach, hne, -, hk⟩
    exact ⟨a, (List.mem_cons.mp (hc.links.mem_of_reach hreach)).resolve_left hne, hk⟩
  · rintro ⟨a, ha, hk⟩
    have ha' : a ∈ 0 :: xs := List.mem_cons_of_mem 0 ha
    exact ⟨a, hc.links.reach ha', hc.chained.ne_zero ha, hc.unmarked a ha', hk⟩

theorem Heap.Chained.marked (hc : h.Chained natural xs) : h.Marked xs where
  links := hc.links
  nodup := hc.nodup
  head := hc.unmarked 0 List.mem_cons_self

/-- What a call does to the list. -/
theorem op_changes (hc : h.Chained natural xs) (hsmall : ∀ a ∈ xs, (h.node a).key < 2 ^ 31)
    (hok : Proper (.call op)) : OpChanges natural h xs op op.toCall := by
  obtain ⟨hassert, hkey⟩ := hok
  have hord : op.toCall.Ordered natural (h.entries xs) := by
    intro key hk p hp
    obtain ⟨a, ha, rfl⟩ := List.mem_map.mp hp
    exact agrees_of_small (hsmall a ha) (hkey key hk)
  cases op with
  | lookup key => exact lookup_changes hc hord
  | cas key expectation new => exact cas_changes hc hassert.1 hord
  | remove key => exact remove_changes hc hord

end Chained

/-! ## `ll_iter_begin` -/

/-- Where `ll_iter_begin` sets the iterator, and when it goes wrong. -/
theorem begin_spec {h : Heap} {xs : List ℕ} (hc : h.Chained natural xs)
    (hsmall : ∀ a ∈ xs, (h.node a).key < 2 ^ 31) {start : ℕ} (hstart : start < 2 ^ 31) :
    ∃ b, (∀ fuel ≥ xs.length + 2, llIterBegin fuel h start = some b)
      ∧ (b = .nullDereference ↔ start ≠ 0 ∧ ∀ k ≥ start, ¬ h.Present k)
      ∧ ∀ p, b = .opened p → p ∈ 0 :: xs ∧ (p ≠ 0 → (h.node p).key < start) := by
  by_cases h0 : start = 0
  · refine ⟨.opened 0, fun fuel _ => ?_, ⟨nofun, fun hne => absurd h0 hne.1⟩, fun p hp => ?_⟩
    · exact if_neg (not_not.mpr h0)
    · cases hp
      exact ⟨List.mem_cons_self, fun h => absurd rfl h⟩
  · obtain ⟨p, item, d, hplace, hp, hitem⟩ := Access.place_spec (access start) atOrPast h xs 0 0
    have hdiff : ∀ a ∈ xs, keyDiff (h.node a).key start = (h.node a).key - start := fun a ha => by
      have := hsmall a ha
      exact keyDiff_of_near (by omega) (by omega)
    -- the search ends without a node when all keys are before `start`
    have hfind : item = xs.find? fun a => start ≤ (h.node a).key := by
      refine hitem.trans (List.find?_congr fun a ha => ?_)
      have hmark : (h.node a).next.mark = false := hc.unmarked a (List.mem_cons_of_mem 0 ha)
      rw [access_mark, access_diff, hmark, hdiff a ha]
      simp [atOrPast]
    have hbegin : ∀ fuel ≥ xs.length + 2, llIterBegin fuel h start = some (.found p item) := by
      intro fuel hf
      obtain ⟨p', item', d', hplace', hskips⟩ := findPred_skips hc.marked start hf
      rw [hplace] at hplace'
      cases hplace'
      refine (if_pos h0).trans ?_
      rw [hskips]
      rfl
    refine ⟨_, hbegin, ?_, fun p' hp' => ?_⟩
    · cases item with
      | none =>
        refine iff_of_true rfl ⟨h0, fun k hk hpresent => ?_⟩
        obtain ⟨a, ha, rfl⟩ := hc.present_iff.mp hpresent
        exact List.find?_eq_none.mp hfind.symm a ha (by simpa using hk)
      | some a =>
        refine iff_of_false nofun fun hnone => ?_
        have hstart' := List.find?_some hfind.symm
        refine hnone.2 (h.node a).key (by simpa using hstart') ?_
        exact hc.present_iff.mpr ⟨a, List.mem_of_find?_eq_some hfind.symm, rfl⟩
    · cases item with
      | none => cases hp'
      | some a =>
        cases hp'
        rcases hp with rfl | ⟨hpx, -, hd⟩
        · exact ⟨List.mem_cons_self, fun h => absurd rfl h⟩
        · refine ⟨List.mem_cons_of_mem 0 hpx, fun _ => ?_⟩
          have hneg : ¬ 0 ≤ keyDiff (h.node p).key start := of_decide_eq_false hd
          rw [hdiff p hpx] at hneg
          omega

/-! ## The run of an iterator -/

/-- Until the end all keys that are still to come are behind the node that the iterator stands
on; then it stands on none. -/
structure Invariant (start : ℕ) (s : Session Heap (Option ℕ)) : Prop where
  faithful : Faithful Heap.Present start s
  finished : s.ended = true → s.place = none
  chained : ∃ xs, s.state.Chained natural xs ∧ (∀ a ∈ xs, (s.state.node a).key < 2 ^ 31)
    ∧ (s.ended = false → s.state ∈ s.watched ∧ ∃ p N, s.place = some p ∧ N p
      ∧ FrozenChain.Kept s.state.view xs N (s.Steady Heap.Present)
      ∧ Behind s.state.view xs (s.Steady Heap.Present) start s.keys p)

section Run

variable {start : ℕ} {s : Session Heap (Option ℕ)}

theorem Invariant.opened {h : Heap} {xs : List ℕ} {p : ℕ} (hc : h.Chained natural xs)
    (hsmall : ∀ a ∈ xs, (h.node a).key < 2 ^ 31) (hp : p ∈ 0 :: xs)
    (hpstart : p ≠ 0 → (h.node p).key < start) : Invariant start (Session.opened h (some p)) where
  faithful := Faithful.opened ..
  finished := nofun
  chained := by
    refine ⟨xs, hc, hsmall, fun _ => ⟨List.mem_singleton.mpr rfl, p, _, rfl, hp, hc.chained.kept _,
      nofun, fun x hx hstart _ _ => ?_⟩⟩
    replace hstart : start ≤ (h.node x).key := hstart
    have hlt : h.view.Lt p x := ⟨hc.chained.ne_zero hx, fun hne => (hpstart hne).trans_le hstart⟩
    refine ⟨?_, hc.chained.reach hp (List.mem_cons_of_mem 0 hx) hlt⟩
    rintro rfl
    exact hlt.irrefl

/-- A call between two calls of `ll_iter_next`. -/
theorem Invariant.call {op : Op} (hI : Invariant start s) (hok : Proper (.call op)) :
    ∃ fuel t, (∀ fuel' ≥ fuel, iterator.step fuel' s (.call op) = some t) ∧ Invariant start t := by
  obtain ⟨xs, hc, hsmall, hlive⟩ := hI.chained
  obtain ⟨fuel, h', xs', hexec, hc', hentries, hchange⟩ := op_changes hc hsmall hok
  have hsmall' : ∀ a ∈ xs', (h'.node a).key < 2 ^ 31 := by
    intro a ha
    have hp : ((h'.node a).key, (h'.node a).val) ∈ h'.entries xs' := List.mem_map_of_mem ha
    rw [hentries] at hp
    rcases keys_after hp with hp | hk
    · obtain ⟨b, hb, heq⟩ := List.mem_map.mp hp
      have hkey : (s.state.node b).key = (h'.node a).key := congrArg Prod.fst heq
      exact hkey ▸ hsmall b hb
    · exact hok.2 _ hk
  refine ⟨fuel, s.called h', fun fuel' hf => ?_, hI.faithful.called h', hI.finished, xs', hc',
    hsmall', fun hended => ?_⟩
  · simp only [Iterator.step, iterator, hexec fuel' hf, Option.map_some]
  · have hended' : s.ended = false := hended
    obtain ⟨hwatched, p, N, hplace, hNp, hkept, hbehind⟩ := hlive hended'
    have hsteady : ∀ k, (s.called h').Steady Heap.Present k → s.Steady Heap.Present k := fun k hk =>
      ((steady_called hended').mp hk).1
    have hpresent : ∀ k, (s.called h').Steady Heap.Present k →
        ∃ a ∈ xs, s.state.view.key a = k := fun k hk =>
      hc.present_iff.mp (hsteady k hk _ hwatched)
    obtain ⟨N', hN, hkept'⟩ := (hkept.mono hsteady).change hchange hc'.chained hpresent
    refine ⟨?_, p, N', hplace, hN p hNp, hkept', hbehind.change hkept hNp hchange hc'.chained
      fun k hk => ⟨hsteady k hk, hpresent k hk⟩⟩
    show h' ∈ if s.ended then s.watched else s.watched ++ [h']
    rw [hended']
    simp

/-- Where all nodes are marked, the loop comes to the end. -/
theorem loop_of_skip {h : Heap} {p fuel : ℕ} (hskip : h.view.skip fuel (some p) = some none) :
    llIterLoop h fuel p = some (doesNotExist, none, none) := by
  induction fuel generalizing p with
  | zero => cases hskip
  | succ fuel ih =>
    rw [View.skip] at hskip
    split_ifs at hskip with hmark
    · have hmark' : (h.node p).next.mark = true := hmark
      rw [llIterLoop]
      cases hnext : (h.node p).next.node with
      | none => rfl
      | some q =>
        have hq : h.view.succ p = some q := hnext
        rw [hq] at hskip
        simp only [hmark', if_true]
        exact ih hskip
    · cases hskip

/-- The end, when nothing is owed any more. -/
theorem Invariant.answered_none (hI : Invariant start s)
    (hall : ∀ k ≥ start, s.Steady Heap.Present k → k ∈ s.keys) :
    Invariant start (s.answered none none) := by
  obtain ⟨xs, hc, hsmall, -⟩ := hI.chained
  refine ⟨hI.faithful.answered_none hall none, fun _ => rfl, xs, hc, hsmall, fun h => ?_⟩
  rw [ended_answered, Option.isNone_none, Bool.or_true] at h
  cases h

/-- A call of `ll_iter_next` that meets the condition. -/
theorem Invariant.next (hI : Invariant start s) (hclear : Clear start s .next) :
    ∃ fuel t, (∀ fuel' ≥ fuel, iterator.step fuel' s .next = some t) ∧ Invariant start t := by
  cases hended : s.ended with
  | true =>
    refine ⟨0, _, fun fuel' _ => ?_, hI.answered_none (hI.faithful.complete hended)⟩
    simp only [Iterator.step, iterator, hI.finished hended, llIterNext]
    rfl
  | false =>
    obtain ⟨xs, hc, hsmall, hlive⟩ := hI.chained
    obtain ⟨hwatched, p, N, hplace, hNp, hkept, hbehind⟩ := hlive hended
    have hsteady : ∀ k, s.Steady Heap.Present k → ∃ x ∈ xs, (s.state.node x).key = k := fun k hk =>
      hc.present_iff.mp (hk _ hwatched)
    have hclear' := hclear p hplace
    split_ifs at hclear' with hmark
    · -- the node was removed, and so were all behind it
      obtain ⟨r, hr⟩ := hkept.skip_ends (o := some p) (fun y hy => Option.some.inj hy ▸ hNp)
        (Nat.lt_succ_self _)
      have hnone : r = none := by
        cases r with
        | none => rfl
        | some x =>
          obtain ⟨hreach, hx⟩ := View.skip_reach hr
          have hxm : s.state.view.mark x = true := hclear' x hreach
          rw [hx] at hxm
          cases hxm
      subst hnone
      refine ⟨s.state.view.brk + 2, _, fun fuel' hf => ?_, hI.answered_none fun k hk hks => ?_⟩
      · have hloop := loop_of_skip (View.skip_mono hr hf)
        simp only [Iterator.step, iterator, hplace, llIterNext, hloop]
        rfl
      · obtain ⟨x, hx, rfl⟩ := hsteady k hks
        exact hbehind.all_marked hc.chained hclear' x hx hk hks
    · have hp : p ∈ 0 :: xs := (hkept.frozen p hNp).resolve_right hmark
      cases hnext : s.state.succ p with
      | none =>
        refine ⟨1, _, fun fuel' hf => ?_, hI.answered_none fun k hk hks => ?_⟩
        · obtain ⟨fuel', rfl⟩ := Nat.exists_eq_succ_of_ne_zero (Nat.ne_of_gt hf)
          have hnode : (s.state.node p).next.node = none := hnext
          simp only [Iterator.step, iterator, hplace, llIterNext, llIterLoop, hnode]
          rfl
        · obtain ⟨x, hx, rfl⟩ := hsteady k hks
          exact hbehind.at_end hnext x hx hk hks
      | some q =>
        obtain ⟨hq, hkeys, hbehind'⟩ := hbehind.pass hc.chained hp hnext
        have hval : (s.state.node q).val ≠ doesNotExist := hc.vals q hq
        refine ⟨1, s.answered (some (s.state.node q).key) (some q), fun fuel' hf => ?_,
          hI.faithful.answered_key hended (hclear' q hnext) hkeys _, fun h => ?_, xs, hc, hsmall,
          fun _ => ⟨hwatched, q, N, rfl, hkept.live q (List.mem_cons_of_mem 0 hq), hkept, ?_⟩⟩
        · obtain ⟨fuel', rfl⟩ := Nat.exists_eq_succ_of_ne_zero (Nat.ne_of_gt hf)
          have hnode : (s.state.node p).next.node = some q := hnext
          simp only [Iterator.step, iterator, hplace, llIterNext, llIterLoop, hnode, if_neg hmark,
            Option.map_some, if_neg hval]
        · rw [ended_answered, hended] at h
          cases h
        · rw [keys_answered]
          exact hbehind'

/-- **When the iteration over the list is faithful**: `ll_iter_begin` dereferences `NULL` if and
only if it is given a start key and no key of the list is at or behind it; and a run in which
every call of `ll_iter_next` is `Clear` is faithful. -/
theorem iteration_faithful_when {h : Heap} {xs : List ℕ} (hc : h.Chained natural xs)
    (hsmall : ∀ a ∈ xs, (h.node a).key < 2 ^ 31) {start : ℕ} (hstart : start < 2 ^ 31) :
    ∃ b, (∀ fuel ≥ xs.length + 2, llIterBegin fuel h start = some b)
      ∧ (b = .nullDereference ↔ start ≠ 0 ∧ ∀ k ≥ start, ¬ h.Present k)
      ∧ ∀ p, b = .opened p → ∀ es, (∀ e ∈ es, Proper e) →
        iterator.Meets (Clear start) (Session.opened h (some p)) es →
        ∃ fuel s, (∀ fuel' ≥ fuel, iterator.run fuel' (Session.opened h (some p)) es = some s)
          ∧ Faithful Heap.Present start s := by
  obtain ⟨b, hbegin, hcrash, hopened⟩ := begin_spec hc hsmall hstart
  refine ⟨b, hbegin, hcrash, fun p hp es hes hmeets => ?_⟩
  obtain ⟨hpx, hpstart⟩ := hopened p hp
  have hstep : ∀ s e, Invariant start s → Proper e ∧ Clear start s e →
      ∃ fuel t, (∀ fuel' ≥ fuel, iterator.step fuel' s e = some t) ∧ Invariant start t := by
    intro s e hI he
    cases e with
    | call op => exact hI.call he.1
    | next => exact hI.next he.2
  obtain ⟨fuel, s, hrun, hI⟩ := Iterator.run_invariant hstep
    (Invariant.opened hc hsmall hpx hpstart) (hmeets.and_forall hes)
  exact ⟨fuel, s, hrun, hI.faithful⟩

end Run

/-! ## A list of three keys -/

/-- The keys 2, 4 and 6. -/
def threeKeys : Heap where
  node
    | 0 => ⟨0, 0, ⟨some 1, false⟩⟩
    | 1 => ⟨2, 9, ⟨some 2, false⟩⟩
    | 2 => ⟨4, 9, ⟨some 3, false⟩⟩
    | _ => ⟨6, 9, ⟨none, false⟩⟩
  brk := 4
  owner _ := 0
  linked := [3, 2, 1]
  unlinked := []
  handed := []

theorem threeKeys_chained : threeKeys.Chained natural [1, 2, 3] where
  links := ⟨rfl, rfl, rfl, rfl⟩
  nodup := by decide
  alloc := by decide
  unmarked := by decide
  sorted := by simp [natural, threeKeys]
  vals := by decide

theorem threeKeys_iteration : ∃ fuel s,
    (∀ fuel' ≥ fuel,
      iterator.run fuel' (Session.opened threeKeys (some 0)) [.next, .next] = some s)
    ∧ Faithful Heap.Present 0 s := by
  obtain ⟨b, hbegin, -, hrun⟩ :=
    iteration_faithful_when threeKeys_chained (by decide) (show 0 < 2 ^ 31 by decide)
  have hb : b = .opened 0 := (Option.some.inj (hbegin 5 (by decide))).symm
  refine hrun 0 hb [.next, .next] (by decide) ⟨?_, fun fuel t ht => ⟨?_, fun _ _ _ => trivial⟩⟩
  · intro p hp
    cases hp
    exact fun _ _ => Nat.zero_le _
  · cases fuel with
    | zero => cases ht
    | succ fuel =>
      cases ht
      intro p hp
      cases hp
      exact fun _ _ => Nat.zero_le _

/-- Whether an unmarked node from `o` on has the key. -/
def Heap.finds (h : Heap) (k : ℕ) : ℕ → Option ℕ → Bool
  | fuel + 1, some a =>
    a ≠ 0 && !(h.node a).next.mark && (h.node a).key == k || h.finds k fuel (h.succ a)
  | _, _ => false

theorem present_of_finds {h : Heap} {k fuel : ℕ} {o : Option ℕ} (ho : ∀ a ∈ o, h.Reachable a)
    (hfinds : h.finds k fuel o = true) : h.Present k := by
  induction fuel generalizing o with
  | zero => cases hfinds
  | succ fuel ih =>
    cases o with
    | none => cases hfinds
    | some a =>
      have ha : h.Reachable a := ho a rfl
      rw [Heap.finds, Bool.or_eq_true] at hfinds
      rcases hfinds with hfinds | hfinds
      · simp only [Bool.and_eq_true, decide_eq_true_eq, Bool.not_eq_true', beq_iff_eq] at hfinds
        exact ⟨a, ha, hfinds.1.1, hfinds.1.2, hfinds.2⟩
      · exact ih (fun b hb => ha.tail hb) hfinds

/-- A start key behind all keys; a key that is skipped, as the one before it was removed; and a
key before the start key. -/
theorem iteration_not_faithful :
    llIterBegin 9 threeKeys 7 = some .nullDereference
    ∧ (∃ s, iterator.run 60 (Session.opened threeKeys (some 0))
        [.next, .call (.remove 2), .next, .next] = some s
      ∧ s.ended = true ∧ s.keys = [2, 6] ∧ s.Steady Heap.Present 4)
    ∧ llIterBegin 9 threeKeys 6 = some (.opened 2)
    ∧ ∃ s, iterator.run 60 (Session.opened threeKeys (some 2)) [.call (.cas 5 0 9), .next] = some s
      ∧ s.keys = [5] := by
  refine ⟨by decide +kernel, ?_, by decide +kernel, ?_⟩
  · obtain ⟨s, hrun, hs⟩ := Option.map_eq_some_iff.mp (show
      (iterator.run 60 (Session.opened threeKeys (some 0))
        [.next, .call (.remove 2), .next, .next]).map (fun s =>
          (s.ended, s.keys, s.watched.all fun t => t.finds 4 9 (t.succ 0)))
        = some (true, [2, 6], true) by decide +kernel)
    obtain ⟨hended, hrest⟩ := Prod.mk.inj hs
    obtain ⟨hkeys, hwatched⟩ := Prod.mk.inj hrest
    refine ⟨s, hrun, hended, hkeys, fun t ht => ?_⟩
    exact present_of_finds (fun a ha => Reach.head ha (Reach.refl a))
      (List.all_eq_true.mp hwatched t ht)
  · exact Option.map_eq_some_iff.mp (show (iterator.run 60 (Session.opened threeKeys (some 2))
      [.call (.cas 5 0 9), .next]).map Session.keys = some [5] by decide +kernel)

end LinkedList
