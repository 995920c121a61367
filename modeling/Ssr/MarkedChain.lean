/-
# Searches of a chain with marked nodes

A node is removed by a mark on its link and unlinked later.  A search that does not help
skips the marked nodes on its way; one that helps links past them.  Both are written once,
over any memory that holds the links and marks:

* `Access.scan` — the loop of a search, with what it does when a link has changed;
* `Access.place` — where it ends, read off the list of the nodes;
* `Access.scan_skips`, `Access.scan_cuts` — both searches end there, and the helping one only
  links past marked nodes (`Access.Cuts`);
* `Access.Cuts.links` — that leaves the unmarked nodes and their order.

Nothing here refers to a particular program.
-/
import Ssr.Chain

open Chain

namespace MarkedChain

variable {σ α : Type*}

/-- The links, marks and keys of the nodes, and how the link of `pred` is led past `item`.
`diff` is the difference between the key of a node and the one that is looked for. -/
structure Access (σ α : Type*) where
  succ : σ → α → Option α
  mark : σ → α → Bool
  diff : σ → α → ℤ
  cut : σ → (pred item : α) → Option α → σ

/-- How a loop ends: the link of `pred` was found marked, or the search stops. -/
inductive Scan (α : Type*) where
  | lost
  | stop (pred : α) (item : Option α) (d : ℤ)
  deriving DecidableEq, Repr

namespace Access

/-! ## The loop -/

section Scan

variable [DecidableEq α]

/-- The loop from `item` on, which lies behind `pred`; `d` is the last difference. -/
def scan (m : Access σ α) (help : Bool) (stop : ℤ → Bool) :
    ℕ → σ → α → Option α → ℤ → Option (σ × Scan α)
  | 0, _, _, _, _ => none
  | _ + 1, s, pred, none, d => some (s, .stop pred none d)
  | fuel + 1, s, pred, some item, d =>
    if m.mark s item then
      if help = false then m.scan help stop fuel s pred (m.succ s item) d
      else if m.succ s pred = some item ∧ m.mark s pred = false then
        m.scan help stop fuel (m.cut s pred item (m.succ s item)) pred (m.succ s item) d
      else if m.mark s pred then some (s, .lost)
      else m.scan help stop fuel s pred (m.succ s pred) d
    else if stop (m.diff s item) then some (s, .stop pred (some item) (m.diff s item))
    else m.scan help stop fuel s item (m.succ s item) (m.diff s item)

end Scan

/-- The first unmarked node at which the search stops, with the last unmarked one before it. -/
def place (m : Access σ α) (stop : ℤ → Bool) (s : σ) : List α → α → ℤ → Scan α
  | [], pred, d => .stop pred none d
  | y :: ys, pred, d =>
    if m.mark s y then m.place stop s ys pred d
    else if stop (m.diff s y) then .stop pred (some y) (m.diff s y)
    else m.place stop s ys y (m.diff s y)

/-- What a `cut` changes. -/
structure Lawful (m : Access σ α) : Prop where
  succ_cut : ∀ s pred item next a, m.succ (m.cut s pred item next) a = next ∧ a = pred
    ∨ a ≠ pred ∧ m.succ (m.cut s pred item next) a = m.succ s a
  mark_cut : ∀ s pred item next a, m.mark s pred = false →
    m.mark (m.cut s pred item next) a = m.mark s a
  diff_cut : ∀ s pred item next, m.diff (m.cut s pred item next) = m.diff s

/-- Marked nodes were unlinked behind unmarked ones. -/
def Cuts (m : Access σ α) : σ → σ → Prop :=
  Relation.ReflTransGen fun s s' => ∃ pred item, m.succ s pred = some item
    ∧ m.mark s pred = false ∧ m.mark s item = true ∧ s' = m.cut s pred item (m.succ s item)

variable {m : Access σ α} {stop : ℤ → Bool} {s s' : σ} {ys : List α} {pred : α} {d : ℤ}

/-! ## Where the search ends -/

theorem place_congr (hmark : ∀ y ∈ ys, m.mark s' y = m.mark s y)
    (hdiff : ∀ y ∈ ys, m.diff s' y = m.diff s y) :
    m.place stop s' ys pred d = m.place stop s ys pred d := by
  induction ys generalizing pred d with
  | nil => rfl
  | cons y ys ih =>
    have hrest : ∀ p d, m.place stop s' ys p d = m.place stop s ys p d := fun p d =>
      ih (fun z hz => hmark z (List.mem_cons_of_mem y hz))
        fun z hz => hdiff z (List.mem_cons_of_mem y hz)
    simp only [place, hmark y List.mem_cons_self, hdiff y List.mem_cons_self, hrest]

/-- The node behind which the search stops, and the one at which it does. -/
theorem place_spec (m : Access σ α) (stop : ℤ → Bool) (s : σ) (ys : List α) (pred : α) (d : ℤ) :
    ∃ p item d', m.place stop s ys pred d = .stop p item d'
      ∧ (p = pred ∨ p ∈ ys ∧ m.mark s p = false ∧ stop (m.diff s p) = false)
      ∧ item = ys.find? fun y => !m.mark s y && stop (m.diff s y) := by
  induction ys generalizing pred d with
  | nil => exact ⟨pred, none, d, rfl, .inl rfl, rfl⟩
  | cons y ys ih =>
    rw [place]
    split_ifs with hmark hstop
    · obtain ⟨p, item, d', heq, hp, hitem⟩ := ih pred d
      refine ⟨p, item, d', heq, hp.imp_right fun h => ⟨List.mem_cons_of_mem y h.1, h.2⟩, ?_⟩
      rw [hitem, List.find?_cons_of_neg (by simp [hmark])]
    · refine ⟨pred, some y, _, rfl, .inl rfl, ?_⟩
      rw [List.find?_cons_of_pos (by simp [hmark, hstop])]
    · obtain ⟨p, item, d', heq, hp, hitem⟩ := ih y (m.diff s y)
      refine ⟨p, item, d', heq, .inr ?_, ?_⟩
      · rcases hp with rfl | h
        · exact ⟨List.mem_cons_self, by simpa using hmark, by simpa using hstop⟩
        · exact ⟨List.mem_cons_of_mem y h.1, h.2⟩
      · rw [hitem, List.find?_cons_of_neg (by simp [hstop])]

/-! ## Unlinking marked nodes -/

theorem Lawful.succ_cut_self (hm : m.Lawful) (item : α) (next : Option α) :
    m.succ (m.cut s pred item next) pred = next := by
  rcases hm.succ_cut s pred item next pred with h | h
  · exact h.1
  · exact absurd rfl h.1

theorem Lawful.succ_cut_of_ne (hm : m.Lawful) (item : α) (next : Option α) {a : α} (ha : a ≠ pred) :
    m.succ (m.cut s pred item next) a = m.succ s a := by
  rcases hm.succ_cut s pred item next a with h | h
  · exact absurd h.2 ha
  · exact h.2

theorem Cuts.refl (s : σ) : m.Cuts s s := Relation.ReflTransGen.refl

/-- Marks and keys stay. -/
theorem Cuts.same (hm : m.Lawful) (h : m.Cuts s s') :
    (∀ a, m.mark s' a = m.mark s a) ∧ m.diff s' = m.diff s := by
  induction h with
  | refl => exact ⟨fun _ => rfl, rfl⟩
  | tail _ hcut ih =>
    obtain ⟨p, item, -, hp, -, rfl⟩ := hcut
    refine ⟨fun a => ?_, (hm.diff_cut ..).trans ih.2⟩
    exact (hm.mark_cut _ _ _ _ a hp).trans (ih.1 a)

/-- **Only marked nodes leave a chain.** -/
theorem Cuts.links [DecidableEq α] (hm : m.Lawful) (h : m.Cuts s s') {r : α} {xs : List α}
    (hl : Links (m.succ s) r xs) (hnd : (r :: xs).Nodup) :
    ∃ xs', Links (m.succ s') r xs' ∧ xs'.Sublist xs
      ∧ (xs'.filter fun a => !m.mark s a) = xs.filter fun a => !m.mark s a := by
  induction h with
  | refl => exact ⟨xs, hl, List.Sublist.refl xs, rfl⟩
  | @tail t _ hcuts hcut ih =>
    obtain ⟨p, item, hitem, hp, hmark, rfl⟩ := hcut
    obtain ⟨ys, hys, hsub, hfilter⟩ := ih
    by_cases hpmem : p ∈ r :: ys
    · -- the node behind `p` leaves the chain
      have hndy : (r :: ys).Nodup := hnd.sublist (List.cons_sublist_cons.mpr hsub)
      obtain ⟨lo, hi, rfl, rfl⟩ : ∃ lo hi, ys = lo ++ hi ∧ p = lo.getLastD r := by
        rcases List.mem_cons.mp hpmem with rfl | hpy
        · exact ⟨[], ys, rfl, rfl⟩
        · obtain ⟨us, vs, rfl⟩ := List.append_of_mem hpy
          exact ⟨us ++ [p], vs, by simp, by simp⟩
      obtain ⟨hi, rfl⟩ : ∃ hi', hi = item :: hi' := by
        have hnext := hys.suffix.next_eq
        rw [hitem] at hnext
        exact ⟨hi.tail, List.eq_cons_of_mem_head? hnext.symm⟩
      have hsub' : (lo ++ hi).Sublist (lo ++ item :: hi) :=
        (List.Sublist.refl lo).append (List.sublist_cons_self item hi)
      refine ⟨lo ++ hi, hys.delete hndy ?_ ?_, hsub'.trans hsub, ?_⟩
      · rw [hm.succ_cut_self]
        exact hys.suffix.2.next_eq
      · exact fun a _ ha => hm.succ_cut_of_ne _ _ ha
      · have hmark' : m.mark s item = true := ((Cuts.same hm hcuts).1 item).symm.trans hmark
        rw [← hfilter, List.filter_append, List.filter_append, List.filter_cons_of_neg (by simp [hmark'])]
    · refine ⟨ys, hys.congr fun a ha => hm.succ_cut_of_ne _ _ ?_, hsub, hfilter⟩
      rintro rfl
      exact hpmem ha

/-! ## The two searches -/

section Agree

variable [DecidableEq α] {fuel : ℕ}

/-- The search that does not help. -/
theorem scan_skips (hs : Spells (m.succ s) ys.head? ys) (hfuel : ys.length < fuel) :
    m.scan false stop fuel s pred ys.head? d = some (s, m.place stop s ys pred d) := by
  induction ys generalizing pred d fuel with
  | nil =>
    obtain ⟨fuel, rfl⟩ := Nat.exists_eq_succ_of_ne_zero (Nat.ne_of_gt hfuel)
    rfl
  | cons y ys ih =>
    obtain ⟨fuel, rfl⟩ := Nat.exists_eq_succ_of_ne_zero (Nat.ne_of_gt (Nat.zero_lt_of_lt hfuel))
    have hnext : m.succ s y = ys.head? := hs.2.head_eq
    have hrest : Spells (m.succ s) ys.head? ys := hnext ▸ hs.2
    have hlen : ys.length < fuel := Nat.lt_of_succ_lt_succ hfuel
    rw [List.head?_cons, scan, place, hnext, if_pos rfl]
    split_ifs
    · exact ih hrest hlen
    · rfl
    · exact ih hrest hlen

/-- The search that helps. -/
theorem scan_cuts (hm : m.Lawful) (stop : ℤ → Bool) (d : ℤ) (hs : Spells (m.succ s) ys.head? ys)
    (hnd : (pred :: ys).Nodup) (hpred : m.succ s pred = ys.head?) (hmark : m.mark s pred = false)
    (hfuel : ys.length < fuel) :
    ∃ s', m.scan true stop fuel s pred ys.head? d = some (s', m.place stop s ys pred d)
      ∧ m.Cuts s s' := by
  induction ys generalizing s pred d fuel with
  | nil =>
    obtain ⟨fuel, rfl⟩ := Nat.exists_eq_succ_of_ne_zero (Nat.ne_of_gt hfuel)
    exact ⟨s, rfl, Cuts.refl s⟩
  | cons y ys ih =>
    obtain ⟨fuel, rfl⟩ := Nat.exists_eq_succ_of_ne_zero (Nat.ne_of_gt (Nat.zero_lt_of_lt hfuel))
    have hnext : m.succ s y = ys.head? := hs.2.head_eq
    have hrest : Spells (m.succ s) ys.head? ys := hnext ▸ hs.2
    have hlen : ys.length < fuel := Nat.lt_of_succ_lt_succ hfuel
    have hndy : (y :: ys).Nodup := (List.nodup_cons.mp hnd).2
    have hny : pred ∉ y :: ys := (List.nodup_cons.mp hnd).1
    rw [List.head?_cons, scan, place, hnext]
    by_cases hy : m.mark s y = true
    · -- `y` is unlinked, and the search goes on from the same predecessor
      rw [if_pos hy, if_neg (by simp), if_pos ⟨hpred, hmark⟩, if_pos hy]
      have hkeep : ∀ a ∈ ys, m.succ (m.cut s pred y ys.head?) a = m.succ s a := fun a ha =>
        hm.succ_cut_of_ne _ _ fun h => hny (List.mem_cons_of_mem y (h ▸ ha))
      have hsame : ∀ a, m.mark (m.cut s pred y ys.head?) a = m.mark s a := fun a =>
        hm.mark_cut _ _ _ _ a hmark
      obtain ⟨s', hscan, hcuts⟩ := ih d (hrest.congr hkeep)
        (hnd.sublist (List.cons_sublist_cons.mpr (List.sublist_cons_self y ys)))
        (hm.succ_cut_self ..) ((hsame pred).trans hmark) hlen
      refine ⟨s', ?_, Relation.ReflTransGen.head ⟨pred, y, hpred, hmark, hy, by rw [hnext]⟩ hcuts⟩
      rw [hscan, place_congr (fun z _ => hsame z) fun z _ => congrFun (hm.diff_cut ..) z]
    · rw [if_neg hy, if_neg hy]
      split_ifs with hstop
      · exact ⟨s, rfl, Cuts.refl s⟩
      · exact ih _ hrest hndy hnext (by simpa using hy) hlen

end Agree

end Access

end MarkedChain
