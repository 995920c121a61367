/-
# The levels of the lock-free skiplist as chains

The shared half of the invariant of `sl_cas`, `sl_remove` and `find_preds`, for any
number of threads: every level is a chain of marked and unmarked nodes.

* On level `0` the keys grow.  Above it a node may be linked in front of an older one with
  the same key, but then the older one has been removed (`Below`).
* `sl_remove` marks from the top down, so a node that is marked somewhere is marked above
  (`Sealed`).  The one exception is a mark that `sl_cas` takes off again while it corrects
  the links of its node; it never links the node on that level.
* A node that does not lead to a removed one never will (`Grows.clear`); so a removed node
  that has left a level does not come back to it (`Grows.gone`).

`Story` is what the argument remembers of the past.
-/
import Ssr.SkipList
import Ssr.LinkedChain

open Interleaving Map LinkedChain
open LinkedList (Link)

namespace SkipList

/-! ## The past -/

/-- Who allocated a node, on which levels it was ever linked, and whether its inserter has
found a mark on it and stopped. -/
structure Story where
  owner : ℕ → ℕ
  linked : ℕ → ℕ → Prop
  given : ℕ → Prop

/-- At first there is the sentinel alone. -/
def Story.init : Story := ⟨fun _ => 0, fun a _ => a = 0, fun _ => False⟩

/-- Node `a` is linked at `level`. -/
def Story.link (g : Story) (a level : ℕ) : Story :=
  { g with linked := fun b l => g.linked b l ∨ b = a ∧ l = level }

/-- The inserter of `a` stops. -/
def Story.give (g : Story) (a : ℕ) : Story := { g with given := fun b => g.given b ∨ b = a }

/-- What a step adds. -/
def Story.after (t : ℕ) (h : Heap) (g : Story) (pc : Pc) (_ : Cmd) : Story :=
  match pc with
  | .casAlloc _ _ _ => { g with owner := Function.update g.owner h.brk t }
  | .casBottom _ ins =>
    if h.next (ins.path.preds 0) 0 = ⟨ins.path.succs 0, false⟩ then g.link ins.newItem 0 else g
  | .casLink _ ins level =>
    if h.next (ins.path.preds level) level = ⟨ins.path.succs level, false⟩ then
      g.link ins.newItem level
    else g
  | .casStore _ ins _ i _ => if (h.next ins.newItem i).mark then g.give ins.newItem else g
  | _ => g

/-! ## The invariant -/

namespace Heap

variable (h : Heap)

/-- The links of a level. -/
def succ (level a : ℕ) : Option ℕ := (h.next a level).node

/-- The marks of a level. -/
def marked (level a : ℕ) : Bool := (h.next a level).mark

/-- `a` is reached from `sl->head` along the `next` pointers of a level, marks stripped. -/
def Reaches (level a : ℕ) : Prop := Chain.Reach (h.succ level) 0 a

/-- The order of a level. -/
def Below (level a b : ℕ) : Prop :=
  b ≠ 0 ∧ (a = 0 ∨ (h.node a).key < (h.node b).key
    ∨ level ≠ 0 ∧ (h.node a).key = (h.node b).key ∧ b < a ∧ h.marked 0 b = true)

/-- A level is a chain. -/
abbrev Leads (g : Story) (level : ℕ) : Prop :=
  Chained (h.succ level) (h.marked level) (fun a => g.linked a level) 0 (h.Below level)

end Heap

/-- Node `a` is marked at `level`, unless it is not linked there and never will be. -/
def Sealed (h : Heap) (g : Story) (a level : ℕ) : Prop :=
  g.linked a level ∨ ¬ g.given a → level < (h.node a).numLevels → h.marked level a = true

/-- `sl_remove` has swapped out the value of `a`. -/
structure Removed (h : Heap) (g : Story) (a : ℕ) : Prop where
  ne_zero : a ≠ 0
  linked : g.linked a 0
  dead : h.marked 0 a = true
  val : (h.node a).val = doesNotExist

/-- The shared invariant. -/
structure Inv (h : Heap) (g : Story) : Prop where
  brk_pos : 0 < h.brk
  water_pos : 1 ≤ h.highWater
  leads : ∀ level, h.Leads g level
  linked_lt : ∀ a level, g.linked a level → a ≠ 0 → a < h.brk ∧ level < (h.node a).numLevels
  linked_down : ∀ a level, g.linked a (level + 1) → g.linked a level
  height : ∀ a, a ≠ 0 → a < h.brk → (h.node a).numLevels ≤ h.highWater
  top : ∀ a l l', a ≠ 0 → g.linked a 0 → h.marked l a = true → l < l' → Sealed h g a l'
  handed : ∀ a ∈ h.handed, Removed h g a ∧ ∀ level, ¬ h.Reaches level a
  given_lt : ∀ a, g.given a → a < h.brk

/-- What every step does. -/
structure Grows (h : Heap) (g : Story) (h' : Heap) (g' : Story) : Prop where
  brk_le : h.brk ≤ h'.brk
  water_le : h.highWater ≤ h'.highWater
  key_eq : ∀ a, a < h.brk → (h'.node a).key = (h.node a).key
  levels_eq : ∀ a, a < h.brk → (h'.node a).numLevels = (h.node a).numLevels
  linked_sub : ∀ a level, g.linked a level → g'.linked a level
  mark_sub : ∀ a level, g.linked a level → h.marked level a = true → h'.marked level a = true
  sealed_sub : ∀ a level, a < h.brk → Sealed h g a level → Sealed h' g' a level
  frozen : ∀ a level, g.linked a level → h.marked level a = true →
    h'.next a level = h.next a level
  val_dne : ∀ a, a < h.brk → (h.node a).val = doesNotExist → (h'.node a).val = doesNotExist
  handed_sub : ∀ a ∈ h.handed, a ∈ h'.handed
  clear : ∀ p a level, g.linked p level → Removed h g a →
    ¬ Chain.Reach (h.succ level) p a → ¬ Chain.Reach (h'.succ level) p a
  leads : ∀ p a level, g.linked p level → h'.Reaches level a →
    Chain.Reach (h.succ level) p a → Chain.Reach (h'.succ level) p a

/-- What thread `u` relies on: beside that, its own nodes are only marked, and only once
they are linked. -/
structure Rely (u : ℕ) (h : Heap) (g : Story) (h' : Heap) (g' : Story) : Prop where
  grows : Grows h g h' g'
  owner : ∀ a, a ≠ 0 → a < h.brk → g.owner a = u → g'.owner a = u
  given : ∀ a, a ≠ 0 → a < h.brk → g.owner a = u → (g'.given a ↔ g.given a)
  linked : ∀ a level, a ≠ 0 → a < h.brk → g.owner a = u → (g'.linked a level ↔ g.linked a level)
  next : ∀ a level, a ≠ 0 → a < h.brk → g.owner a = u → ¬ g.linked a level →
    h'.next a level = h.next a level
      ∨ g.linked a 0 ∧ h'.next a level = ⟨(h.next a level).node, true⟩

section Invariant

variable {h h' : Heap} {g g' : Story} {a b p level : ℕ}

/-- The order of the nodes on a level. -/
theorem Heap.Below.trans {c : ℕ} (hab : h.Below level a b) (hbc : h.Below level b c) :
    h.Below level a c := by
  obtain ⟨hb, hab⟩ := hab
  obtain ⟨hc, hbc⟩ := hbc
  refine ⟨hc, ?_⟩
  rcases hab with rfl | hab
  · exact .inl rfl
  · refine .inr ?_
    rcases hbc with rfl | hbc
    · exact absurd rfl hb
    · rcases hab with hab | ⟨hl, hab, hba, -⟩ <;> rcases hbc with hbc | ⟨hl, hbc, hcb, hdead⟩
      · exact .inl (hab.trans hbc)
      · exact .inl (hbc ▸ hab)
      · exact .inl (hab ▸ hbc)
      · exact .inr ⟨hl, hab.trans hbc, hcb.trans hba, hdead⟩

/-- No node is below itself. -/
theorem Heap.Below.irrefl : ¬ h.Below level a a := by
  rintro ⟨h0, hlt⟩
  rcases hlt with h0' | hlt | ⟨-, -, hlt, -⟩
  · exact h0 h0'
  · exact lt_irrefl _ hlt
  · exact lt_irrefl _ hlt

/-- Along a level the keys do not fall. -/
theorem Heap.Below.key_le (hab : h.Below level a b) (ha : a ≠ 0) :
    (h.node a).key ≤ (h.node b).key := by
  rcases hab.2 with h0 | hlt | ⟨-, heq, -⟩
  · exact absurd h0 ha
  · exact hlt.le
  · exact heq.le

/-- On level `0` they grow. -/
theorem Heap.Below.key_lt (hab : h.Below 0 a b) (ha : a ≠ 0) :
    (h.node a).key < (h.node b).key := by
  rcases hab.2 with h0 | hlt | ⟨hl, -⟩
  · exact absurd h0 ha
  · exact hlt
  · exact absurd rfl hl

/-- The head is linked on all levels. -/
theorem Inv.root (hi : Inv h g) (level : ℕ) : g.linked 0 level := (hi.leads level).root_linked

/-- A node that was linked was linked below. -/
theorem Inv.linked_of_le (hi : Inv h g) {l : ℕ} (hl : l ≤ level) (ha : g.linked a level) :
    g.linked a l := by
  induction level, hl using Nat.le_induction with
  | base => exact ha
  | succ m _ ih => exact ih (hi.linked_down a m ha)

/-- A node that was linked was allocated. -/
theorem Inv.lt_brk (hi : Inv h g) (ha : g.linked a level) : a < h.brk := by
  by_cases h0 : a = 0
  · rw [h0]
    exact hi.brk_pos
  · exact (hi.linked_lt a level ha h0).1

/-- The next node was not linked. -/
theorem Inv.brk_unlinked (hi : Inv h g) (level : ℕ) : ¬ g.linked h.brk level := fun hl =>
  absurd (hi.lt_brk hl) (lt_irrefl _)

/-- A dead node is marked wherever it is linked. -/
theorem Inv.sealed_of_dead (hi : Inv h g) (h0 : a ≠ 0) (ha : g.linked a 0)
    (hm : h.marked 0 a = true) (level : ℕ) : Sealed h g a level := by
  cases level with
  | zero => exact fun _ _ => hm
  | succ level => exact hi.top a 0 (level + 1) h0 ha hm (Nat.succ_pos level)

/-- A node that is marked at the bottom is marked above. -/
theorem Inv.marked_of_dead (hi : Inv h g) (h0 : a ≠ 0) (ha : g.linked a level)
    (hm : h.marked 0 a = true) : h.marked level a = true := by
  have hbottom : g.linked a 0 := hi.linked_of_le (Nat.zero_le level) ha
  exact hi.sealed_of_dead h0 hbottom hm level (.inl ha) (hi.linked_lt a level ha h0).2

/-- A node that is not marked at a level is not marked below it. -/
theorem Inv.unmarked_below (hi : Inv h g) (ha : g.linked a level)
    (hm : h.marked level a = false) {l : ℕ} (hl : l ≤ level) : h.marked l a = false := by
  by_cases h0 : a = 0
  · rw [h0]
    exact (hi.leads l).root_unmarked
  rcases hl.eq_or_lt with rfl | hlt
  · exact hm
  · by_contra hml
    rw [Bool.not_eq_false] at hml
    have hbottom : g.linked a 0 := hi.linked_of_le (Nat.zero_le level) ha
    have hsealed := hi.top a l level h0 hbottom hml hlt (.inl ha) (hi.linked_lt a level ha h0).2
    rw [hm] at hsealed
    exact absurd hsealed (by simp)

/-- Two live nodes with the same key are the same. -/
theorem Inv.live_unique (hi : Inv h g) (ha0 : a ≠ 0) (hb0 : b ≠ 0) (ha : g.linked a 0)
    (hb : g.linked b 0) (hma : h.marked 0 a = false) (hmb : h.marked 0 b = false)
    (hkey : (h.node a).key = (h.node b).key) : a = b := by
  have hc := hi.leads 0
  have hone : ∀ x y, x ≠ 0 → g.linked x 0 → Chain.Reach (h.succ 0) x y →
      (h.node x).key = (h.node y).key → x = y := by
    intro x y hx0 hx hxy hk
    rcases (hc.le_of_reach hx hxy).2 with heq | hlt
    · exact heq
    · exact absurd hk (hlt.key_lt hx0).ne
  rcases (hc.reached a ha hma).total (hc.reached b hb hmb) with hab | hba
  · exact hone a b ha0 ha hab hkey
  · exact (hone b a hb0 hb hba hkey.symm).symm

/-- A node that is removed stays so. -/
theorem Removed.grows (hr : Removed h g a) (hi : Inv h g) (hg : Grows h g h' g') :
    Removed h' g' a where
  ne_zero := hr.ne_zero
  linked := hg.linked_sub a 0 hr.linked
  dead := hg.mark_sub a 0 hr.linked hr.dead
  val := hg.val_dne a (hi.lt_brk hr.linked) hr.val

/-- A removed node that has left a level does not come back. -/
theorem Grows.gone (hg : Grows h g h' g') (hi : Inv h g) (hr : Removed h g a)
    (hn : ¬ h.Reaches level a) : ¬ h'.Reaches level a :=
  hg.clear 0 a level (hi.root level) hr hn

/-- Nothing has changed. -/
theorem Grows.refl (h : Heap) (g : Story) : Grows h g h g where
  brk_le := le_rfl
  water_le := le_rfl
  key_eq _ _ := rfl
  levels_eq _ _ := rfl
  linked_sub _ _ ha := ha
  mark_sub _ _ _ hm := hm
  sealed_sub _ _ _ hs := hs
  frozen _ _ _ _ := rfl
  val_dne _ _ hv := hv
  handed_sub _ ha := ha
  clear _ _ _ _ _ hn := hn
  leads _ _ _ _ _ hr := hr

/-- No step is no matter to anybody. -/
theorem Rely.refl (u : ℕ) (h : Heap) (g : Story) : Rely u h g h g where
  grows := .refl h g
  owner _ _ _ ho := ho
  given _ _ _ _ := Iff.rfl
  linked _ _ _ _ _ := Iff.rfl
  next _ _ _ _ _ _ := .inl rfl

end Invariant

/-! ## Stores that no level sees -/

/-- A store that no level sees: a node that is linked may be marked, and the links of a node
may change on a level where it is not linked. -/
structure Quiet (h : Heap) (g : Story) (h' : Heap) (g' : Story) : Prop where
  brk_le : h.brk ≤ h'.brk
  water_le : h.highWater ≤ h'.highWater
  key_eq : ∀ a, a < h.brk → (h'.node a).key = (h.node a).key
  levels_eq : ∀ a, a < h.brk → (h'.node a).numLevels = (h.node a).numLevels
  linked_eq : ∀ a level, g'.linked a level ↔ g.linked a level
  given_sub : ∀ a, g.given a → g'.given a
  val_dne : ∀ a, a < h.brk → (h.node a).val = doesNotExist → (h'.node a).val = doesNotExist
  handed_sub : ∀ a ∈ h.handed, a ∈ h'.handed
  next : ∀ a level, a < h.brk → h'.next a level = h.next a level
    ∨ a ≠ 0 ∧ g.linked a 0 ∧ h'.next a level = ⟨(h.next a level).node, true⟩
    ∨ a ≠ 0 ∧ ¬ g.linked a level
      ∧ (h.marked level a = true → h'.marked level a = true ∨ g'.given a)

section Quiet

variable {h h' : Heap} {g g' : Story} {a level : ℕ}

/-- A quiet step leaves the links. -/
theorem Quiet.succ_eq (hq : Quiet h g h' g') (hi : Inv h g) (ha : g.linked a level) :
    h'.succ level a = h.succ level a := by
  rcases hq.next a level (hi.lt_brk ha) with heq | ⟨-, -, heq⟩ | ⟨-, hl, -⟩
  · exact congrArg Link.node heq
  · rw [Heap.succ, heq]
    rfl
  · exact absurd ha hl

/-- It leaves the marks. -/
theorem Quiet.mark_sub (hq : Quiet h g h' g') (hi : Inv h g) (ha : g.linked a level)
    (hm : h.marked level a = true) : h'.marked level a = true := by
  rcases hq.next a level (hi.lt_brk ha) with heq | ⟨-, -, heq⟩ | ⟨-, hl, -⟩
  · exact (congrArg Link.mark heq).trans hm
  · exact congrArg Link.mark heq
  · exact absurd ha hl

/-- It leaves sealed nodes sealed. -/
theorem Quiet.sealed (hq : Quiet h g h' g') (ha : a < h.brk) (hs : Sealed h g a level) :
    Sealed h' g' a level := by
  intro hor hlt
  rw [hq.levels_eq a ha] at hlt
  rw [hq.linked_eq] at hor
  have hm : h.marked level a = true := hs (hor.imp_right fun hn hg => hn (hq.given_sub a hg)) hlt
  rcases hq.next a level ha with heq | ⟨-, -, heq⟩ | ⟨-, hl, hkeep⟩
  · exact (congrArg Link.mark heq).trans hm
  · exact congrArg Link.mark heq
  · rcases hkeep hm with hm' | hgiven
    · exact hm'
    · rcases hor with ha' | hng
      · exact absurd ha' hl
      · exact absurd hgiven hng

/-- It leaves what is reached. -/
theorem Quiet.reach_iff (hq : Quiet h g h' g') (hi : Inv h g) {p : ℕ} (hp : g.linked p level) :
    Chain.Reach (h'.succ level) p a ↔ Chain.Reach (h.succ level) p a :=
  (hi.leads level).reach_congr (fun _ hx => hq.succ_eq hi hx) hp

/-- **A quiet step** loses nothing. -/
theorem Quiet.grows (hq : Quiet h g h' g') (hi : Inv h g) : Grows h g h' g' where
  brk_le := hq.brk_le
  water_le := hq.water_le
  key_eq := hq.key_eq
  levels_eq := hq.levels_eq
  linked_sub a level ha := (hq.linked_eq a level).mpr ha
  mark_sub _ _ ha hm := hq.mark_sub hi ha hm
  sealed_sub _ _ ha hs := hq.sealed ha hs
  frozen := by
    intro a level ha hm
    rcases hq.next a level (hi.lt_brk ha) with heq | ⟨-, -, heq⟩ | ⟨-, hl, -⟩
    · exact heq
    · rw [heq, ← hm]
      rfl
    · exact absurd ha hl
  val_dne := hq.val_dne
  handed_sub := hq.handed_sub
  clear := by
    intro p a level hp _ hn hr
    exact hn ((hq.reach_iff hi hp).mp hr)
  leads _ _ _ hp _ hr := (hq.reach_iff hi hp).mpr hr

/-- Such a store keeps the invariant, where the new marks stand below sealed levels. -/
theorem Inv.quiet (hi : Inv h g) (hq : Quiet h g h' g')
    (hheight : ∀ a, a ≠ 0 → a < h'.brk → (h'.node a).numLevels ≤ h'.highWater)
    (htop : ∀ a l, g.linked a 0 → h'.marked l a = true →
      h.marked l a = true ∨ ∀ l', l < l' → Sealed h g a l')
    (hhanded : ∀ a ∈ h'.handed, Removed h g a ∧ ∀ level, ¬ h.Reaches level a)
    (hgiven : ∀ a, g'.given a → a < h.brk) : Inv h' g' := by
  have hg : Grows h g h' g' := hq.grows hi
  have hlinked : ∀ level, (fun a => g'.linked a level) = fun a => g.linked a level := by
    intro level
    funext a
    exact propext (hq.linked_eq a level)
  refine ⟨hi.brk_pos.trans_le hq.brk_le, hi.water_pos.trans hq.water_le, ?_, ?_, ?_, hheight,
    ?_, ?_, fun a ha => (hgiven a ha).trans_le hq.brk_le⟩
  · intro level
    unfold Heap.Leads
    rw [hlinked level]
    refine (hi.leads level).mono (fun a ha => hq.succ_eq hi ha) ?_ ?_
      (fun _ _ _ => Heap.Below.trans) (fun _ => Heap.Below.irrefl) ?_
    · intro a ha hm
      by_contra hma
      rw [Bool.not_eq_false] at hma
      rw [hq.mark_sub hi ha hma] at hm
      exact absurd hm (by simp)
    · rcases hq.next 0 level hi.brk_pos with heq | ⟨h0, -⟩ | ⟨h0, -⟩
      · exact (congrArg Link.mark heq).trans (hi.leads level).root_unmarked
      · exact absurd rfl h0
      · exact absurd rfl h0
    · rintro a b ha hb ⟨hb0, hab⟩
      refine ⟨hb0, ?_⟩
      rw [hq.key_eq a (hi.lt_brk ha), hq.key_eq b (hi.lt_brk hb)]
      refine hab.imp_right fun hab => hab.imp_right fun ⟨hl, hk, hlt, hdead⟩ => ?_
      exact ⟨hl, hk, hlt, hq.mark_sub hi (hi.linked_of_le (Nat.zero_le level) hb) hdead⟩
  · intro a level ha h0
    rw [hq.linked_eq] at ha
    obtain ⟨hlt, hlevel⟩ := hi.linked_lt a level ha h0
    rw [hq.levels_eq a hlt]
    exact ⟨hlt.trans_le hq.brk_le, hlevel⟩
  · intro a level ha
    rw [hq.linked_eq] at ha ⊢
    exact hi.linked_down a level ha
  · intro a l l' h0 ha hm hl
    rw [hq.linked_eq] at ha
    have hlt : a < h.brk := hi.lt_brk ha
    rcases htop a l ha hm with hml | hsealed
    · exact hq.sealed hlt (hi.top a l l' h0 ha hml hl)
    · exact hq.sealed hlt (hsealed l' hl)
  · intro a ha
    obtain ⟨hr, hgone⟩ := hhanded a ha
    exact ⟨hr.grows hi hg, fun level => hg.gone hi hr (hgone level)⟩

end Quiet

/-! ## One lemma per shared update -/

/-- What a step of thread `t` does: it keeps the invariant, and the other threads may rely
on the rest. -/
structure Does (t : ℕ) (h : Heap) (g : Story) (h' : Heap) (g' : Story) : Prop where
  inv : Inv h' g'
  grows : Grows h g h' g'
  others : ∀ u, u ≠ t → Rely u h g h' g'

section Updates

variable {h h' : Heap} {g g' : Story} {t a p n i l level : ℕ}

/-- No step. -/
theorem Does.refl (hi : Inv h g) (t : ℕ) : Does t h g h g :=
  ⟨hi, .refl h g, fun u _ => .refl u h g⟩

/-- A store that no level sees, into a node that is linked or belongs to thread `t`. -/
theorem Does.quiet (hi : Inv h g) (hq : Quiet h g h' g') (hinv : Inv h' g')
    (howner : ∀ a, a < h.brk → g'.owner a = g.owner a)
    (hgiven : ∀ a, g.owner a ≠ t → (g'.given a ↔ g.given a))
    (hnext : ∀ a level, a < h.brk → g.owner a ≠ t → h'.next a level = h.next a level
      ∨ g.linked a 0 ∧ h'.next a level = ⟨(h.next a level).node, true⟩) :
    Does t h g h' g' where
  inv := hinv
  grows := hq.grows hi
  others u hu := by
    have hne : ∀ a, g.owner a = u → g.owner a ≠ t := fun a ho => ho ▸ hu
    refine ⟨hq.grows hi, fun a _ ha ho => ?_, fun a _ _ ho => hgiven a (hne a ho),
      fun a level _ _ _ => hq.linked_eq a level, fun a level _ ha ho _ => ?_⟩
    · rw [howner a ha, ho]
    · exact hnext a level ha (hne a ho)

/-- A store into `val`, which is not taken back once it is `DOES_NOT_EXIST`. -/
theorem Does.setVal (hi : Inv h g) (t : ℕ) {v : ℕ}
    (hv : (h.node a).val = doesNotExist → v = doesNotExist) : Does t h g (h.setVal a v) g := by
  have hq : Quiet h g (h.setVal a v) g := by
    refine ⟨le_rfl, le_rfl, fun b _ => h.key_setVal a v b, fun b _ => h.numLevels_setVal a v b,
      fun _ _ => Iff.rfl, fun _ hg => hg, ?_, fun _ hb => hb,
      fun b level _ => .inl (h.next_setVal a v b level)⟩
    intro b _ hb
    rw [h.val_setVal]
    split
    · rename_i heq
      exact hv (heq ▸ hb)
    · exact hb
  have hm : ∀ b l, (h.setVal a v).marked l b = h.marked l b := fun b l =>
    congrArg Link.mark (h.next_setVal a v b l)
  refine .quiet hi hq (hi.quiet hq ?_ ?_ hi.handed hi.given_lt) (fun _ _ => rfl)
    (fun _ _ => Iff.rfl) fun b level _ _ => .inl (h.next_setVal a v b level)
  · intro b h0 hb
    rw [h.numLevels_setVal]
    exact hi.height b h0 hb
  · intro b l _ hml
    exact .inl ((hm b l).symm.trans hml)

/-- A new node, which nobody sees yet. -/
theorem Does.alloc (hi : Inv h g) (args : Cas) (succs : ℕ → Option ℕ) (hn : n ≤ h.highWater) :
    Does t h g (h.alloc args n succs) { g with owner := Function.update g.owner h.brk t } := by
  have hold : ∀ b, b < h.brk → (h.alloc args n succs).node b = h.node b := fun b hb =>
    h.node_alloc_of_ne hb.ne
  have hnext : ∀ b l, b < h.brk → (h.alloc args n succs).next b l = h.next b l := by
    intro b l hb
    rw [Heap.next, hold b hb]
    rfl
  have hq : Quiet h g (h.alloc args n succs)
      { g with owner := Function.update g.owner h.brk t } := by
    refine ⟨Nat.le_succ _, le_rfl, fun b hb => ?_, fun b hb => ?_, fun _ _ => Iff.rfl,
      fun _ hg => hg, fun b hb hv => ?_, fun _ hb => hb, fun b level hb => .inl (hnext b level hb)⟩
    · rw [hold b hb]
    · rw [hold b hb]
    · rw [hold b hb]
      exact hv
  refine .quiet hi hq (hi.quiet hq ?_ ?_ hi.handed hi.given_lt) ?_ (fun _ _ => Iff.rfl)
    fun b level hb _ => .inl (hnext b level hb)
  · intro b h0 hb
    by_cases hbb : b = h.brk
    · rw [hbb, h.node_alloc_brk]
      exact hn
    · have hlt : b < h.brk := lt_of_le_of_ne (Nat.lt_succ_iff.mp hb) hbb
      rw [hold b hlt]
      exact hi.height b h0 hlt
  · intro b l hb hml
    exact .inl ((congrArg Link.mark (hnext b l (hi.lt_brk hb))).symm.trans hml)
  · intro b hb
    exact Function.update_of_ne hb.ne t g.owner

/-- `sl_remove` marks a level below sealed ones. -/
theorem Does.mark (hi : Inv h g) (t : ℕ) (h0 : a ≠ 0) (ha : g.linked a 0)
    (hsealed : ∀ l', l < l' → Sealed h g a l') :
    Does t h g (h.setNext a l ⟨(h.next a l).node, true⟩) g := by
  have hnext : ∀ b k, (h.setNext a l ⟨(h.next a l).node, true⟩).next b k = h.next b k
      ∨ b = a ∧ k = l ∧ (h.setNext a l ⟨(h.next a l).node, true⟩).next b k
        = ⟨(h.next b k).node, true⟩ := by
    intro b k
    rw [h.next_setNext]
    split
    · rename_i heq
      obtain ⟨rfl, rfl⟩ := heq
      exact .inr ⟨rfl, rfl, rfl⟩
    · exact .inl rfl
  have hq : Quiet h g (h.setNext a l ⟨(h.next a l).node, true⟩) g := by
    refine ⟨le_rfl, le_rfl, fun b _ => h.key_setNext a l _ b,
      fun b _ => h.numLevels_setNext a l _ b, fun _ _ => Iff.rfl, fun _ hg => hg,
      fun b _ hb => ?_, fun _ hb => hb, fun b k _ => ?_⟩
    · rw [h.val_setNext]
      exact hb
    · rcases hnext b k with heq | ⟨rfl, -, heq⟩
      · exact .inl heq
      · exact .inr (.inl ⟨h0, ha, heq⟩)
  refine .quiet hi hq (hi.quiet hq ?_ ?_ hi.handed hi.given_lt) (fun _ _ => rfl)
    (fun _ _ => Iff.rfl) ?_
  · intro b hb0 hb
    rw [h.numLevels_setNext]
    exact hi.height b hb0 hb
  · intro b k _ hmk
    rcases hnext b k with heq | ⟨rfl, rfl, -⟩
    · exact .inl ((congrArg Link.mark heq).symm.trans hmk)
    · exact .inr hsealed
  · intro b k _ _
    rcases hnext b k with heq | ⟨rfl, -, heq⟩
    · exact .inl heq
    · exact .inr ⟨ha, heq⟩

/-- `sl_cas` corrects the link of its node at a level where the node is not linked; where
the link was marked, the node is not linked there any more. -/
theorem Does.store (hi : Inv h g) (h0 : a ≠ 0) (hlt : a < h.brk) (ha : ¬ g.linked a l)
    (ho : g.owner a = t) (o : Option ℕ) :
    Does t h g (h.setNext a l ⟨o, false⟩) (if (h.next a l).mark then g.give a else g) := by
  have hnext : ∀ b k, (h.setNext a l ⟨o, false⟩).next b k = h.next b k
      ∨ b = a ∧ k = l ∧ (h.setNext a l ⟨o, false⟩).next b k = ⟨o, false⟩ := by
    intro b k
    rw [h.next_setNext]
    split
    · rename_i heq
      exact .inr ⟨heq.1, heq.2, rfl⟩
    · exact .inl rfl
  have hq : Quiet h g (h.setNext a l ⟨o, false⟩) (if (h.next a l).mark then g.give a else g) := by
    refine ⟨le_rfl, le_rfl, fun b _ => h.key_setNext a l _ b,
      fun b _ => h.numLevels_setNext a l _ b, fun b k => ?_, fun b hb => ?_,
      fun b _ hb => ?_, fun _ hb => hb, fun b k _ => ?_⟩
    · split <;> exact Iff.rfl
    · split
      · exact .inl hb
      · exact hb
    · rw [h.val_setNext]
      exact hb
    · rcases hnext b k with heq | ⟨rfl, rfl, heq⟩
      · exact .inl heq
      · refine .inr (.inr ⟨h0, ha, fun hm => .inr ?_⟩)
        rw [if_pos (show (h.next b k).mark = true from hm)]
        exact .inr rfl
  refine .quiet hi hq (hi.quiet hq ?_ ?_ hi.handed ?_) ?_ ?_ ?_
  · intro b hb0 hb
    rw [h.numLevels_setNext]
    exact hi.height b hb0 hb
  · intro b k _ hmk
    rcases hnext b k with heq | ⟨rfl, rfl, heq⟩
    · exact .inl ((congrArg Link.mark heq).symm.trans hmk)
    · rw [Heap.marked, heq] at hmk
      exact absurd hmk (by simp)
  · intro b
    split
    · rintro (hg | rfl)
      · exact hi.given_lt b hg
      · exact hlt
    · exact hi.given_lt b
  · intro b _
    split <;> rfl
  · intro b hb
    split
    · refine ⟨fun hg => hg.elim id ?_, .inl⟩
      rintro rfl
      exact absurd ho hb
    · exact Iff.rfl
  · intro b k _ hb
    rcases hnext b k with heq | ⟨rfl, -, -⟩
    · exact .inl heq
    · exact absurd ho hb

/-- The inserter of a node stops. -/
theorem Does.give (hi : Inv h g) (hlt : a < h.brk) (ho : g.owner a = t) :
    Does t h g h (g.give a) := by
  have hq : Quiet h g h (g.give a) :=
    ⟨le_rfl, le_rfl, fun _ _ => rfl, fun _ _ => rfl, fun _ _ => Iff.rfl, fun _ => .inl,
      fun _ _ hv => hv, fun _ hb => hb, fun _ _ _ => .inl rfl⟩
  refine .quiet hi hq (hi.quiet hq hi.height ?_ hi.handed ?_) (fun _ _ => rfl) ?_
    fun _ _ _ _ => .inl rfl
  · exact fun _ _ _ => .inl
  · rintro b (hg | rfl)
    · exact hi.given_lt b hg
    · exact hlt
  · intro b hb
    refine ⟨fun hg => hg.elim id ?_, .inl⟩
    rintro rfl
    exact absurd ho hb

/-- `random_levels` raises `high_water`. -/
theorem Does.raise (hi : Inv h g) (t : ℕ) :
    Does t h g { h with highWater := h.highWater + 1 } g := by
  have hq : Quiet h g { h with highWater := h.highWater + 1 } g :=
    ⟨le_rfl, Nat.le_succ _, fun _ _ => rfl, fun _ _ => rfl, fun _ _ => Iff.rfl, fun _ hg => hg,
      fun _ _ hv => hv, fun _ hb => hb, fun _ _ _ => .inl rfl⟩
  refine .quiet hi hq (hi.quiet hq ?_ ?_ hi.handed hi.given_lt) (fun _ _ => rfl)
    (fun _ _ => Iff.rfl) fun _ _ _ _ => .inl rfl
  · intro b h0 hb
    exact (hi.height b h0 hb).trans (Nat.le_succ _)
  · exact fun _ _ _ => .inl

/-- A removed node that is on no level is handed over. -/
theorem Does.hand (hi : Inv h g) (t : ℕ) (hr : Removed h g a)
    (hgone : ∀ level, ¬ h.Reaches level a) :
    Does t h g { h with handed := h.handed ++ [a] } g := by
  have hq : Quiet h g { h with handed := h.handed ++ [a] } g :=
    ⟨le_rfl, le_rfl, fun _ _ => rfl, fun _ _ => rfl, fun _ _ => Iff.rfl, fun _ hg => hg,
      fun _ _ hv => hv, fun _ hb => List.mem_append_left [a] hb, fun _ _ _ => .inl rfl⟩
  refine .quiet hi hq (hi.quiet hq hi.height ?_ ?_ hi.given_lt) (fun _ _ => rfl)
    (fun _ _ => Iff.rfl) fun _ _ _ _ => .inl rfl
  · exact fun _ _ _ => .inl
  · intro b hb
    rcases List.mem_append.mp hb with hb | hb
    · exact hi.handed b hb
    · rw [List.mem_singleton] at hb
      subst hb
      exact ⟨hr, hgone⟩

/-! ### Stores that change a level -/

/-- The successors after a store on their level. -/
theorem Heap.succ_setNext (h : Heap) (p l : ℕ) (o : Link) :
    (h.setNext p l o).succ l = Function.update (h.succ l) p o.node := by
  funext b
  rw [Heap.succ, h.next_setNext, Function.update_apply]
  by_cases hb : b = p
  · rw [if_pos ⟨hb, rfl⟩, if_pos hb]
  · rw [if_neg fun heq => hb heq.1, if_neg hb]
    rfl

/-- Those on the other levels. -/
theorem Heap.succ_setNext_of_ne (h : Heap) (p : ℕ) {k : ℕ} (hk : k ≠ l) (o : Link) :
    (h.setNext p l o).succ k = h.succ k := by
  funext b
  rw [Heap.succ, h.next_setNext, if_neg fun heq => hk heq.2]
  rfl

/-- Storing an unmarked link over an unmarked one changes no mark. -/
theorem Heap.marked_setNext (hm : h.marked l p = false) (o : Option ℕ) (k b : ℕ) :
    (h.setNext p l ⟨o, false⟩).marked k b = h.marked k b := by
  rw [Heap.marked, h.next_setNext]
  split
  · rename_i heq
    rw [heq.1, heq.2, hm]
  · rfl

/-- A store into a link that is not marked leaves the order. -/
theorem Heap.below_setNext (hm : h.marked l p = false) (o : Option ℕ) (k : ℕ) :
    (h.setNext p l ⟨o, false⟩).Below k = h.Below k := by
  funext a b
  simp only [Heap.Below, h.key_setNext, Heap.marked_setNext hm]

/-- It leaves sealed nodes sealed. -/
theorem Sealed.setNext (hm : h.marked l p = false) (o : Option ℕ) {k : ℕ}
    (hs : Sealed h g a k) : Sealed (h.setNext p l ⟨o, false⟩) g a k := by
  intro hor hlt
  rw [h.numLevels_setNext] at hlt
  rw [Heap.marked_setNext hm]
  exact hs hor hlt

/-- A node that stays unlinked here and was not given up is sealed as before. -/
theorem Sealed.link (hg : ¬ g.given n) {k : ℕ} (hs : Sealed h g a k) :
    Sealed h (g.link n l) a k := by
  intro hor hlt
  refine hs ?_ hlt
  rcases hor with (ha | ⟨rfl, -⟩) | hng
  · exact .inl ha
  · exact .inr hg
  · exact .inr hng

/-- The links of the other nodes, and all links that were marked, stay. -/
theorem Heap.next_setNext_of_ne (h : Heap) {k : ℕ} (o : Link) (hne : a ≠ p ∨ k ≠ l) :
    (h.setNext p l o).next a k = h.next a k := by
  rw [h.next_setNext]
  refine if_neg fun heq => ?_
  rcases hne with hne | hne
  · exact hne heq.1
  · exact hne heq.2

/-- The new node of `sl_cas` is linked at its next level. -/
theorem Does.link (hi : Inv h g) (hn0 : n ≠ 0) (hnb : n < h.brk) (ho : g.owner n = t)
    (hgiven : ¬ g.given n) (hnl : ¬ g.linked n l) (hbelow : ∀ k < l, g.linked n k)
    (hlevel : l < (h.node n).numLevels) (hfresh : l = 0 → ∀ k, h.marked k n = false)
    (hnr : ¬ Removed h g n) (hp : g.linked p l) (hkey : p = 0 ∨ (h.node p).key < (h.node n).key)
    {o : Option ℕ} (hcas : h.next p l = ⟨o, false⟩) (hsucc : h.succ l n = o)
    (hnext : ∀ b, o = some b → h.Below l n b) :
    Does t h g (h.setNext p l ⟨some n, false⟩) (g.link n l) := by
  have hm : h.marked l p = false := congrArg Link.mark hcas
  have hpo : h.succ l p = o := congrArg Link.node hcas
  have hc := hi.leads l
  have hpn : p ≠ n := by
    rintro rfl
    exact hnl hp
  have hsame : ∀ k, k ≠ l → (h.setNext p l ⟨some n, false⟩).succ k = h.succ k := fun k hk =>
    h.succ_setNext_of_ne p hk _
  have hclear : ∀ q a k, g.linked q k → Removed h g a → ¬ Chain.Reach (h.succ k) q a →
      ¬ Chain.Reach ((h.setNext p l ⟨some n, false⟩).succ k) q a := by
    intro q a k _ hr hn
    by_cases hk : k = l
    · subst hk
      rw [h.succ_setNext]
      intro hqa
      rcases reach_of_insert hpn (hsucc.trans hpo.symm) hqa with hqa | rfl
      · exact hn hqa
      · exact hnr hr
    · rw [hsame k hk]
      exact hn
  have hsealed : ∀ a k, Sealed h g a k → Sealed (h.setNext p l ⟨some n, false⟩) (g.link n l) a k :=
    fun a k hs => (hs.setNext hm (some n)).link hgiven
  have hgrows : Grows h g (h.setNext p l ⟨some n, false⟩) (g.link n l) := by
    refine ⟨le_rfl, le_rfl, fun b _ => h.key_setNext p l _ b,
      fun b _ => h.numLevels_setNext p l _ b, fun _ _ => .inl, fun b k _ hb => ?_,
      fun b k _ hs => hsealed b k hs, fun b k _ hb => ?_,
      fun b _ hb => ?_, fun _ hb => hb, hclear, fun q b k _ _ hr => ?_⟩
    · rw [Heap.marked_setNext hm]
      exact hb
    · refine h.next_setNext_of_ne _ ?_
      by_contra! heq
      rw [heq.1, heq.2, hm] at hb
      exact absurd hb (by simp)
    · rw [h.val_setNext]
      exact hb
    · by_cases hk : k = l
      · subst hk
        rw [h.succ_setNext]
        exact hr.insert (hsucc.trans hpo.symm) hpn
      · rw [hsame k hk]
        exact hr
  have hinv : Inv (h.setNext p l ⟨some n, false⟩) (g.link n l) := by
    refine ⟨hi.brk_pos, hi.water_pos, fun k => ?_, fun b k hb h0 => ?_, fun b k hb => ?_,
      fun b h0 hb => ?_, fun b k k' h0 hb hmk hlt => ?_, fun b hb => ?_, hi.given_lt⟩
    · unfold Heap.Leads
      rw [Heap.below_setNext hm, show (h.setNext p l ⟨some n, false⟩).marked k = h.marked k from
        funext fun b => Heap.marked_setNext hm _ k b]
      by_cases hk : k = l
      · subst hk
        have hset : (fun b => (g.link n k).linked b k) = fun b => g.linked b k ∨ b = n := by
          funext b
          refine propext ⟨fun hb => hb.imp_right And.left, fun hb => hb.imp_right fun heq => ?_⟩
          exact ⟨heq, rfl⟩
        rw [h.succ_setNext, hset]
        refine hc.insert hp hm hnl (hsucc.trans hpo.symm) ⟨hn0, hkey.imp_right .inl⟩ fun b hb => ?_
        exact hnext b (hpo.symm.trans hb)
      · have hset : (fun b => (g.link n l).linked b k) = fun b => g.linked b k := by
          funext b
          exact propext ⟨fun hb => hb.elim id fun heq => absurd heq.2 hk, .inl⟩
        rw [hsame k hk, hset]
        exact hi.leads k
    · rw [h.numLevels_setNext]
      rcases hb with hb | ⟨rfl, rfl⟩
      · exact hi.linked_lt b k hb h0
      · exact ⟨hnb, hlevel⟩
    · rcases hb with hb | ⟨rfl, rfl⟩
      · exact .inl (hi.linked_down b k hb)
      · exact .inl (hbelow k (Nat.lt_succ_self k))
    · rw [h.numLevels_setNext]
      exact hi.height b h0 hb
    · rw [Heap.marked_setNext hm] at hmk
      refine hsealed b k' ?_
      rcases hb with hb | ⟨rfl, hl⟩
      · exact hi.top b k k' h0 hb hmk hlt
      · rw [hfresh hl.symm k] at hmk
        exact absurd hmk (by simp)
    · obtain ⟨hr, hb⟩ := hi.handed b hb
      exact ⟨hr.grows hi hgrows, fun k => hgrows.gone hi hr (hb k)⟩
  refine ⟨hinv, hgrows, fun u hu => ⟨hgrows, fun _ _ _ hb => hb, fun _ _ _ _ => Iff.rfl,
    fun b k _ _ hb => ⟨fun hl => hl.elim id ?_, .inl⟩, fun b k _ _ _ hb => .inl ?_⟩⟩
  · rintro ⟨rfl, -⟩
    exact absurd (hb.symm.trans ho) hu
  · refine h.next_setNext_of_ne _ ?_
    by_contra! heq
    rw [heq.1, heq.2] at hb
    exact hb hp

/-- A marked node is unlinked from a level. -/
theorem Does.unlink (hi : Inv h g) (t : ℕ) (hp : g.linked p l)
    (hcas : h.next p l = ⟨some i, false⟩) (hmi : h.marked l i = true) :
    Does t h g (h.setNext p l ⟨(h.next i l).node, false⟩) g
      ∧ ¬ (h.setNext p l ⟨(h.next i l).node, false⟩).Reaches l i := by
  have hm : h.marked l p = false := congrArg Link.mark hcas
  have hpi : h.succ l p = some i := congrArg Link.node hcas
  have hc := hi.leads l
  have hreach : ∀ a, (h.setNext p l ⟨(h.next i l).node, false⟩).Reaches l a
      ↔ h.Reaches l a ∧ a ≠ i := by
    intro a
    rw [Heap.Reaches, h.succ_setNext]
    exact hc.reach_delete hp hm hpi
  have hsame : ∀ k, k ≠ l → (h.setNext p l ⟨(h.next i l).node, false⟩).succ k = h.succ k :=
    fun k hk => h.succ_setNext_of_ne p hk _
  have hclear : ∀ q a k, ¬ Chain.Reach (h.succ k) q a →
      ¬ Chain.Reach ((h.setNext p l ⟨(h.next i l).node, false⟩).succ k) q a := by
    intro q a k hn
    by_cases hk : k = l
    · subst hk
      rw [h.succ_setNext]
      exact fun hqa => hn (reach_before_delete hpi hqa)
    · rw [hsame k hk]
      exact hn
  have hgrows : Grows h g (h.setNext p l ⟨(h.next i l).node, false⟩) g := by
    refine ⟨le_rfl, le_rfl, fun b _ => h.key_setNext p l _ b,
      fun b _ => h.numLevels_setNext p l _ b, fun _ _ hb => hb, fun b k _ hb => ?_,
      fun b k _ hs => hs.setNext hm _, fun b k _ hb => ?_,
      fun b _ hb => ?_, fun _ hb => hb, fun q b k _ _ => hclear q b k, fun q b k _ hb hr => ?_⟩
    · rw [Heap.marked_setNext hm]
      exact hb
    · refine h.next_setNext_of_ne _ ?_
      by_contra! heq
      rw [heq.1, heq.2, hm] at hb
      exact absurd hb (by simp)
    · rw [h.val_setNext]
      exact hb
    · by_cases hk : k = l
      · subst hk
        rw [h.succ_setNext]
        exact hc.reach_of_delete hp hpi ((hreach b).mp hb).2 hr
      · rw [hsame k hk]
        exact hr
  have hinv : Inv (h.setNext p l ⟨(h.next i l).node, false⟩) g := by
    refine ⟨hi.brk_pos, hi.water_pos, fun k => ?_, fun b k hb h0 => ?_, hi.linked_down,
      fun b h0 hb => ?_, fun b k k' h0 hb hmk hlt => ?_, fun b hb => ?_, hi.given_lt⟩
    · unfold Heap.Leads
      rw [Heap.below_setNext hm, show (h.setNext p l ⟨(h.next i l).node, false⟩).marked k
        = h.marked k from funext fun b => Heap.marked_setNext hm _ k b]
      by_cases hk : k = l
      · subst hk
        rw [h.succ_setNext]
        exact hc.delete hp hm hpi hmi
      · rw [hsame k hk]
        exact hi.leads k
    · rw [h.numLevels_setNext]
      exact hi.linked_lt b k hb h0
    · rw [h.numLevels_setNext]
      exact hi.height b h0 hb
    · rw [Heap.marked_setNext hm] at hmk
      exact (hi.top b k k' h0 hb hmk hlt).setNext hm _
    · obtain ⟨hr, hb⟩ := hi.handed b hb
      exact ⟨hr.grows hi hgrows, fun k => hgrows.gone hi hr (hb k)⟩
  refine ⟨⟨hinv, hgrows, fun u _ => ⟨hgrows, fun _ _ _ hb => hb, fun _ _ _ _ => Iff.rfl,
    fun _ _ _ _ _ => Iff.rfl, fun b k _ _ _ hb => .inl ?_⟩⟩, fun hr => ((hreach i).mp hr).2 rfl⟩
  refine h.next_setNext_of_ne _ ?_
  by_contra! heq
  rw [heq.1, heq.2] at hb
  exact hb hp

end Updates

end SkipList
