/-
# Iterating over the skiplist

`sl_iter_begin` and `sl_iter_next`, with complete calls of `sl_cas` and `sl_remove` between
them.  The iterator stands on the node that it will return next; when that one is removed it
follows the links that removed nodes keep, back into the chain of the lowest level.

* `slIterBegin`, `slIterNext`, `iterator` — the functions;
* `Invariant` — the place of the iterator is in front of every key that is still to come;
* `iteration_faithful` — the iteration does what it is to do, and returns no key that is absent.
-/
import Ssr.Iteration
import Ssr.SkipListSearch

open Map SortedMap Sequential Chain Tower Iteration
open FrozenChain (View Change Kept Ahead)

namespace SkipList

/-! ## The functions -/

/-- `sl_iter_begin`: what `iter->next` is. -/
def slIterBegin (fuel : ℕ) (h : Heap) (key : ℕ) : Option (Option ℕ) :=
  if key ≠ doesNotExist then
    (findPreds .dont 1 key fuel h Path.empty).map fun r => r.2.1.succs 0
  else some (h.next 0 0).node

/-- `sl_iter_next` with `iter->next`: the value, what is stored to `key_ptr`, and the new
`iter->next`. -/
def slIterNext (fuel : ℕ) (h : Heap) (next : Option ℕ) : Option (ℕ × Option ℕ × Option ℕ) :=
  match (h.view 0).skip fuel next with
  | none => none
  | some none => some (doesNotExist, none, none)
  | some (some item) => some ((h.node item).val, some (h.node item).key, (h.next item 0).node)

/-- The iterator as its caller sees it: the value `DOES_NOT_EXIST` is the end.  A call comes with
the draw of `nbd_rand` that it makes. -/
def iterator : Iterator Heap (Option ℕ) (Op × ℕ) where
  next fuel h next := (slIterNext fuel h next).map fun r =>
    (if r.1 = doesNotExist then none else r.2.1, r.2.2)
  exec fuel h c := (execOp fuel c.2 h c.1).map Prod.snd

/-- An iteration from `start` on, with the events that follow `sl_iter_begin`. -/
def iterate (fuel : ℕ) (h : Heap) (start : ℕ) (es : List (Event (Op × ℕ))) :
    Option (Session Heap (Option ℕ)) :=
  (slIterBegin fuel h start).bind fun next => iterator.run fuel (Session.opened h next) es

/-- The key is in the skiplist: an unmarked node of the lowest level has it. -/
def Heap.Present (h : Heap) (k : ℕ) : Prop :=
  ∃ a, Reach (h.shape.succ 0) 0 a ∧ a ≠ 0 ∧ (h.next a 0).mark = false ∧ (h.node a).key = k

/-- The call as a call of the map. -/
def Op.toCall : Op → Map.Call
  | .lookup key => .get key
  | .cas args => .cas args.key args.expectation args.new
  | .remove key => .remove key

/-- The calls between two calls of `sl_iter_next`: the keys are below `2 ^ 31`, the assertions of
`sl_cas` hold, and the draw is one of `nbd_rand`. -/
def Proper : Event (Op × ℕ) → Prop
  | .next => True
  | .call c => c.2 < 32 ∧ c.1.toCall.Asserted ∧ ∀ key ∈ c.1.toCall.key?, key < 2 ^ 31

instance : DecidablePred Proper
  | .next => isTrue trivial
  | .call c => inferInstanceAs (Decidable (_ ∧ _ ∧ ∀ key ∈ c.1.toCall.key?, key < 2 ^ 31))

/-! ## The lowest level between two calls -/

section Towers

variable {h : Heap} {xs : List ℕ} {k z : ℕ} {op : Op}

theorem Heap.Towers.chained_above (ht : h.Towers natural xs) (level : ℕ) :
    (h.view level).Chained (h.shape.above level xs) where
  links := ht.shape.links level
  nodup := ht.shape.nodup_above level
  alloc a ha := ht.shape.alloc a (mem_of_mem_above ha)
  unmarked a ha := ht.unmarked a (mem_of_mem_above ha) level
  sorted := (ht.shape.sorted_above level).imp fun h => Int.ofNat_lt.mp h

theorem Heap.Towers.chained (ht : h.Towers natural xs) : (h.view 0).Chained xs := by
  have hc := ht.chained_above 0
  rwa [ht.above_zero fun _ ha => ha] at hc

theorem Heap.Towers.present_iff (ht : h.Towers natural xs) :
    h.Present k ↔ ∃ a ∈ xs, (h.node a).key = k := by
  constructor
  · rintro ⟨a, hreach, hne, -, hk⟩
    exact ⟨a, (List.mem_cons.mp (ht.shape.bottom.mem_of_reach hreach)).resolve_left hne, hk⟩
  · rintro ⟨a, ha, hk⟩
    refine ⟨a, ht.shape.bottom.reach (List.mem_cons_of_mem 0 ha), ht.chained.ne_zero ha, ?_, hk⟩
    exact ht.unmarked a (List.mem_cons_of_mem 0 ha) 0

/-- A skiplist without marks is one of those of `findPreds_agree`. -/
theorem Heap.Towers.marked (ht : h.Towers natural xs) : h.Marked {a | a ∈ 0 :: xs} where
  root := List.mem_cons_self
  link a ha level hlevel b hb := by
    have hmem : a ∈ 0 :: h.shape.above level xs := by
      rcases List.mem_cons.mp ha with rfl | ha
      · exact List.mem_cons_self
      · have hne : a ≠ 0 := ht.chained.ne_zero ha
        exact List.mem_cons_of_mem 0 (mem_above.mpr ⟨ha, hlevel.resolve_left hne⟩)
    obtain ⟨hmem', hne, hlt⟩ := (ht.chained_above level).succ_lt hmem hb
    obtain ⟨hb', hblevel⟩ := mem_above.mp hmem'
    exact ⟨List.mem_cons_of_mem 0 hb', ht.shape.alloc b (List.mem_cons_of_mem 0 hb'), hblevel, hne, hlt⟩
  top a ha level _ hmark := by
    rw [ht.unmarked a ha level] at hmark
    cases hmark
  head level := ht.unmarked 0 List.mem_cons_self level

/-- What a call does to the lowest level. -/
theorem op_changes (ht : h.Towers natural xs) (hsmall : ∀ a ∈ xs, (h.node a).key < 2 ^ 31)
    (hok : Proper (.call (op, z))) : OpChanges natural z h xs op op.toCall := by
  obtain ⟨hz, hassert, hkey⟩ := hok
  have hord : op.toCall.Ordered natural (h.shape.entries xs) := by
    intro key hk p hp
    obtain ⟨a, ha, rfl⟩ := List.mem_map.mp hp
    exact agrees_of_small (hsmall a ha) (hkey key hk)
  cases op with
  | lookup key => exact lookup_changes ht hord
  | cas args => exact cas_changes hz ht hassert.1 hord
  | remove key => exact remove_changes ht hord

/-- Where `sl_iter_begin` sets the iterator. -/
theorem begin_eq (ht : h.Towers natural xs) (hsmall : ∀ a ∈ xs, (h.node a).key < 2 ^ 31) {start : ℕ}
    (hstart : start < 2 ^ 31) {fuel : ℕ} (hfuel : h.brk + 1 < fuel) :
    slIterBegin fuel h start = some (xs.find? fun a => start ≤ (h.node a).key) := by
  have hhead : (h.next 0 0).node = xs.head? := ht.shape.bottom.next_eq
  rw [slIterBegin]
  split_ifs with h0
  · obtain ⟨-, path', item, hdont, -, -, hbottom⟩ :=
      findPreds_agree ht.marked 1 start Path.empty hfuel
    obtain ⟨p, hp, ys, hl, hleft, hitem⟩ := hbottom Nat.one_pos ht.water.1
    rw [hdont]
    refine congrArg some (hitem.trans ?_)
    -- the nodes before `p` are before `start`
    have hdiff : ∀ a ∈ xs, keyDiff (h.node a).key start = (h.node a).key - start := fun a ha => by
      have := hsmall a ha
      exact keyDiff_of_near (by omega) (by omega)
    obtain ⟨us, rfl, hus⟩ : ∃ us, xs = us ++ ys ∧ ∀ a ∈ us, (h.node a).key < start := by
      rcases List.mem_cons.mp hp with rfl | hp
      · exact ⟨[], ht.chained.links.unique hl, nofun⟩
      · obtain ⟨us, vs, rfl⟩ := List.append_of_mem hp
        obtain rfl : vs = ys := ht.chained.links.suffix.2.unique hl
        have hpstart : (h.node p).key < start := by
          have hneg := hleft.resolve_left (ht.chained.ne_zero hp)
          rw [hdiff p hp] at hneg
          omega
        refine ⟨us ++ [p], by simp, fun a ha => ?_⟩
        rcases List.mem_append.mp ha with ha | ha
        · exact ((List.pairwise_append.mp ht.chained.sorted).2.2 a ha p List.mem_cons_self).trans hpstart
        · exact List.mem_singleton.mp ha ▸ hpstart
    have hnone : us.find? (fun a => start ≤ (h.node a).key) = none :=
      List.find?_eq_none.mpr fun a ha => by simpa using hus a ha
    rw [List.find?_append, hnone, Option.none_or]
    refine List.find?_congr fun a ha => ?_
    have hmem : a ∈ us ++ ys := List.mem_append_right us ha
    have hmark : (h.next a 0).mark = false := ht.unmarked a (List.mem_cons_of_mem 0 hmem) 0
    rw [hmark, hdiff a hmem]
    simp [LinkedList.atOrPast]
  · obtain rfl : start = 0 := not_not.mp h0
    rw [hhead]
    cases xs <;> simp

end Towers

/-! ## The run of an iterator -/

/-- Until the end the place of the iterator is in front of every key that is still to come; then
it is `NULL`. -/
structure Invariant (start : ℕ) (s : Session Heap (Option ℕ)) : Prop where
  faithful : Faithful Heap.Present start s
  current : Current Heap.Present s
  finished : s.ended = true → s.place = none
  towers : ∃ xs, s.state.Towers natural xs ∧ (∀ a ∈ xs, (s.state.node a).key < 2 ^ 31)
    ∧ (s.ended = false → s.state ∈ s.watched ∧ ∃ N,
      Kept (s.state.view 0) xs N (s.Steady Heap.Present)
      ∧ Ahead (s.state.view 0) xs N (s.Steady Heap.Present) start s.keys s.place)

section Run

variable {start : ℕ} {s : Session Heap (Option ℕ)}

/-- `sl_iter_begin`. -/
theorem Invariant.opened {h : Heap} {xs : List ℕ} (ht : h.Towers natural xs)
    (hsmall : ∀ a ∈ xs, (h.node a).key < 2 ^ 31) (start : ℕ) :
    Invariant start (Session.opened h (xs.find? fun a => start ≤ (h.node a).key)) where
  faithful := Faithful.opened ..
  current := nofun
  finished := nofun
  towers := by
    refine ⟨xs, ht, hsmall, fun _ => ⟨List.mem_singleton.mpr rfl, _, ht.chained.kept _, ?_, ?_⟩⟩
    · intro a ha
      have hmem : a ∈ xs := List.mem_of_find?_eq_some ha
      refine ⟨List.mem_cons_of_mem 0 hmem, ht.chained.ne_zero hmem, ?_, nofun⟩
      exact of_decide_eq_true (List.find?_some (p := fun a => decide (start ≤ (h.node a).key)) ha)
    · intro x hx hstart _ _
      replace hstart : start ≤ (h.node x).key := hstart
      show ∃ a, (xs.find? fun a => start ≤ (h.node a).key) = some a ∧ _
      cases hfind : xs.find? fun a => start ≤ (h.node a).key with
      | none =>
        have hnone := List.find?_eq_none.mp hfind x hx
        exact absurd hstart (by simpa using hnone)
      | some a =>
        obtain ⟨-, us, vs, rfl, hus⟩ := List.find?_eq_some_iff_append.mp hfind
        have hxa : x ∈ a :: vs := by
          rcases List.mem_append.mp hx with hx | hx
          · exact absurd hstart (by simpa using hus x hx)
          · exact hx
        exact ⟨a, rfl, ht.chained.links.suffix.2.reach hxa⟩

/-- A call between two calls of `sl_iter_next`. -/
theorem Invariant.call {c : Op × ℕ} (hI : Invariant start s) (hok : Proper (.call c)) :
    ∃ fuel t, (∀ fuel' ≥ fuel, iterator.step fuel' s (.call c) = some t) ∧ Invariant start t := by
  obtain ⟨op, z⟩ := c
  obtain ⟨xs, ht, hsmall, hlive⟩ := hI.towers
  obtain ⟨fuel, h', xs', hexec, ht', hentries, hchange⟩ := op_changes ht hsmall hok
  have hsmall' : ∀ a ∈ xs', (h'.node a).key < 2 ^ 31 := by
    intro a ha
    have hp : ((h'.node a).key, (h'.node a).val) ∈ h'.shape.entries xs' := List.mem_map_of_mem ha
    rw [hentries] at hp
    rcases keys_after hp with hp | hk
    · obtain ⟨b, hb, heq⟩ := List.mem_map.mp hp
      have hkey : (s.state.node b).key = (h'.node a).key := congrArg Prod.fst heq
      exact hkey ▸ hsmall b hb
    · exact hok.2.2 _ hk
  refine ⟨fuel, s.called h', fun fuel' hf => ?_, hI.faithful.called h', hI.current, hI.finished,
    xs', ht', hsmall', fun hended => ?_⟩
  · simp only [Iterator.step, iterator, hexec fuel' hf, Option.map_some]
  · have hended' : s.ended = false := hended
    obtain ⟨hwatched, N, hkept, hahead⟩ := hlive hended'
    have hsteady : ∀ k, (s.called h').Steady Heap.Present k → s.Steady Heap.Present k := fun k hk =>
      ((steady_called hended').mp hk).1
    -- a steady key is there before the call
    have hpresent : ∀ k, (s.called h').Steady Heap.Present k →
        ∃ a ∈ xs, (s.state.view 0).key a = k := fun k hk =>
      ht.present_iff.mp (hsteady k hk _ hwatched)
    obtain ⟨N', hN, hkept'⟩ := (hkept.mono hsteady).change hchange ht'.chained hpresent
    refine ⟨?_, N', hkept', hahead.change hkept hchange ht'.chained hN fun k hk =>
      ⟨hsteady k hk, hpresent k hk⟩⟩
    show h' ∈ if s.ended then s.watched else s.watched ++ [h']
    rw [hended']
    simp

/-- A call of `sl_iter_next`. -/
theorem Invariant.next (hI : Invariant start s) :
    ∃ fuel t, (∀ fuel' ≥ fuel, iterator.step fuel' s .next = some t) ∧ Invariant start t := by
  obtain ⟨xs, ht, hsmall, hlive⟩ := hI.towers
  have hend : ∀ fuel, (s.state.view 0).skip fuel s.place = some none → ∀ fuel' ≥ fuel,
      iterator.step fuel' s .next = some (s.answered none none) := by
    intro fuel hr fuel' hf
    simp only [Iterator.step, iterator, slIterNext, View.skip_mono hr hf]
    rfl
  have hgo : ∀ fuel x, (s.state.view 0).skip fuel s.place = some (some x) → ∀ fuel' ≥ fuel,
      iterator.step fuel' s .next = some (s.answered
        (if (s.state.node x).val = doesNotExist then none else some (s.state.node x).key)
        (s.state.next x 0).node) := by
    intro fuel x hr fuel' hf
    simp only [Iterator.step, iterator, slIterNext, View.skip_mono hr hf]
    rfl
  cases hended : s.ended with
  | true =>
    -- after the end `iter->next` is `NULL`
    refine ⟨1, s.answered none none, hend 1 (by rw [hI.finished hended]; rfl),
      hI.faithful.answered_none (hI.faithful.complete hended) none,
      hI.current.answered none (fun k hk => by cases hk) none, fun _ => rfl, xs, ht, hsmall, fun h => ?_⟩
    rw [ended_answered, hended] at h
    cases h
  | false =>
    obtain ⟨hwatched, N, hkept, hahead⟩ := hlive hended
    obtain ⟨r, hr⟩ := hkept.skip_ends (fun y hy => (hahead.place y hy).1) (Nat.lt_succ_self _)
    cases r with
    | none =>
      have hall : ∀ k ≥ start, s.Steady Heap.Present k → k ∈ s.keys := by
        intro k hk hsteady
        obtain ⟨x, hx, rfl⟩ := ht.present_iff.mp (hsteady _ hwatched)
        exact hahead.skip_none hkept hr x hx hk hsteady
      refine ⟨_, s.answered none none, hend _ hr, hI.faithful.answered_none hall none,
        hI.current.answered none (fun k hk => by cases hk) none, fun _ => rfl, xs, ht, hsmall, fun h => ?_⟩
      rw [ended_answered, hended] at h
      cases h
    | some x =>
      obtain ⟨hx, hmark, hstart, hkeys, hahead'⟩ := hahead.skip_some hkept hr
      have hval : (s.state.node x).val ≠ doesNotExist := ht.shape.vals x hx
      have hstep := hgo _ _ hr
      simp only [if_neg hval] at hstep
      refine ⟨_, _, hstep, hI.faithful.answered_key hended hstart hkeys _,
        hI.current.answered _ ?_ _, fun h => ?_, xs, ht, hsmall, fun _ => ⟨hwatched, N, hkept, ?_⟩⟩
      · intro k hk
        cases hk
        exact ht.present_iff.mpr ⟨x, hx, rfl⟩
      · rw [ended_answered, hended] at h
        cases h
      · rw [keys_answered]
        exact hahead'

/-- **The iteration over the skiplist is faithful**, with any calls in between. -/
theorem iteration_faithful {h : Heap} {xs : List ℕ} (ht : h.Towers natural xs)
    (hsmall : ∀ a ∈ xs, (h.node a).key < 2 ^ 31) {start : ℕ} (hstart : start < 2 ^ 31)
    {es : List (Event (Op × ℕ))} (hes : ∀ e ∈ es, Proper e) :
    ∃ fuel s, (∀ fuel' ≥ fuel, iterate fuel' h start es = some s)
      ∧ Faithful Heap.Present start s ∧ Current Heap.Present s := by
  obtain ⟨fuel, s, hrun, hI⟩ := Iterator.run_invariant
    (fun s e (hs : Invariant start s) (he : Proper e) => match e with
      | .call _ => hs.call he
      | .next => hs.next)
    (Invariant.opened ht hsmall start) (meets_of_forall hes)
  refine ⟨max fuel (h.brk + 2), s, fun fuel' hf => ?_, hI.faithful, hI.current⟩
  rw [iterate, begin_eq ht hsmall hstart ((le_max_right _ _).trans hf)]
  exact hrun fuel' ((le_max_left _ _).trans hf)

end Run

/-- A skiplist of two nodes of heights two and one. -/
def twoTowers : Heap where
  node
    | 0 => ⟨0, 0, maxLevels, fun level => ⟨if level < 2 then some 1 else none, false⟩⟩
    | 1 => ⟨5, 9, 2, fun level => ⟨if level = 0 then some 2 else none, false⟩⟩
    | _ => ⟨7, 9, 1, fun _ => ⟨none, false⟩⟩
  brk := 3
  highWater := 2
  handed := []

theorem twoTowers_towers : twoTowers.Towers natural [1, 2] where
  shape :=
    { links := by
        rintro (_ | _ | level)
        · exact ⟨rfl, rfl, rfl⟩
        · exact ⟨rfl, rfl⟩
        · have habove : twoTowers.shape.above (level + 2) [1, 2] = [] := by
            simp [Shape.above, Heap.shape, twoTowers]
          rw [habove]
          show (twoTowers.next 0 (level + 2)).node = none
          simp [Heap.next, twoTowers]
      nodup := by decide
      alloc := by decide
      sorted := by simp [natural, Heap.shape, twoTowers]
      vals := by decide
      heights := by decide }
  unmarked := by
    intro a ha level
    fin_cases ha <;> rfl
  water := by decide

/-- The node that is next is removed, and a key comes in behind the one that was returned. -/
theorem iteration_faithful_past_removal : ∃ fuel s,
    (∀ fuel' ≥ fuel, iterate fuel' twoTowers 4
      [.next, .call (.remove 7, 0), .call (.cas ⟨9, 0, 3⟩, 1), .next, .next] = some s)
    ∧ Faithful Heap.Present 4 s ∧ Current Heap.Present s :=
  iteration_faithful twoTowers_towers (by decide) (by decide) (by decide)

end SkipList
